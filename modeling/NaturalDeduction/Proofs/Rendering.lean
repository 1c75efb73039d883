import NaturalDeduction.Proofs.Except
import NaturalDeduction.Rendering

/-! # The text of formulas and sequents

    Writing a formula opens and closes regions like brackets, and marks one
    dominant span in each of them. None of these edits is ever refused, whatever
    the formula: the text is that of the operators and atoms alone (`written`),
    and formatting always succeeds.

    What edits do is said of any draft in which no dominant span is open: they
    append a block, which is their text and their regions, and leave the regions
    that were there and the open ones as they were (`Writes`). Where a block is
    written decides on the offsets and indices in its regions.
-/

namespace NaturalDeduction

/-! ### Text without regions -/

/-- The text in brackets, if it needs them. -/
def bracketed (brackets : Bool) (text : List Char) : List Char :=
  if brackets then '(' :: (text ++ [')']) else text

/-- The spelling of an operator among the texts of its operands. -/
def Fixity.spread (fixity : Fixity) (spelling : List Char) (operands : List (List Char)) :
    List Char :=
  let operand := fun i => (operands[i]?).getD []
  match fixity with
  | .prefixed => spelling ++ operand 0
  | .postfixed => operand 0 ++ spelling
  | .infixed => operand 0 ++ ' ' :: (spelling ++ ' ' :: operand 1)

namespace Language

mutual
/-- The characters that are written for a formula. -/
def written (lang : Language) (style : Style) (brackets : Bool) : Formula → List Char
  | .atom s => bracketed brackets s.name.toList
  | .app op fs =>
    bracketed brackets
      (op.fixity.spread (lang.spelling op style).toList (writtenOperands lang style op.fixity fs))

/-- The characters that are written for each of the operands. -/
def writtenOperands (lang : Language) (style : Style) (fixity : Fixity) :
    List Formula → List (List Char)
  | [] => []
  | f :: fs => written lang style (fixity.needsBrackets f) f :: writtenOperands lang style fixity fs
end

/-- The characters of texts of premises and conclusions around a turnstile. -/
def around (turnstile : List Char) (premises conclusions : List (List Char)) : List Char :=
  (if premises.isEmpty then [] else [',', ' '].intercalate premises ++ [' ']) ++ turnstile ++
    if conclusions.isEmpty then [] else ' ' :: [',', ' '].intercalate conclusions

mutual
/-- The characters that are written for a premise. -/
def writtenForm (lang : Language) (style : Style) : Form → List Char
  | .formula f => lang.written style false f
  | .sequent ps cs =>
    '(' :: (around (lang.entailment.spelling style).toList (writtenForms lang style ps)
      (cs.map (lang.written style false)) ++ [')'])

/-- The characters that are written for each of the premises. -/
def writtenForms (lang : Language) (style : Style) : List Form → List (List Char)
  | [] => []
  | p :: ps => writtenForm lang style p :: writtenForms lang style ps
end

/-- The characters that are written for a sequent. -/
def writtenSequent (lang : Language) (style : Style) (s : Sequent) : List Char :=
  around (lang.entailment.spelling style).toList (lang.writtenForms style s.premises)
    (s.conclusions.map (lang.written style false))

end Language

/-! ### Blocks -/

/-- A place in a draft at which something is written. -/
structure Place where
  /-- The offset of the next character. -/
  offset : Nat
  /-- The index of the next region. -/
  index : Nat
  /-- The innermost open region. -/
  parent : Option Nat
  /-- The number of open regions. -/
  depth : Nat

/-- The place right inside a region that is opened. -/
def Place.inside (p : Place) : Place := ⟨p.offset, p.index + 1, some p.index, p.depth + 1⟩

/-- A piece of annotated text: its characters, and the regions that it has at a place. -/
structure Block (α : Type) where
  text : List Char
  regions : Place → List (Region α)

/-- The place after a block. -/
def Place.after {α : Type} (p : Place) (b : Block α) : Place :=
  { p with offset := p.offset + b.text.length, index := p.index + (b.regions p).length }

namespace Block

variable {α : Type}

/-- Text without regions. -/
def ofText (text : List Char) : Block α := ⟨text, fun _ => []⟩

/-- One block after the other. -/
def append (b b' : Block α) : Block α where
  text := b.text ++ b'.text
  regions := fun p => b.regions p ++ b'.regions (p.after b)

/-- The place of the second of two blocks in a region, after the dominant text. -/
def second (b : Block α) (spelling : List Char) (p : Place) : Place :=
  p.inside.after (b.append (.ofText spelling))

/-- A region with its dominant text between two blocks. -/
def region (data : α) (b : Block α) (spelling : List Char) (b' : Block α) : Block α where
  text := b.text ++ spelling ++ b'.text
  regions := fun p =>
    { span := ⟨p.offset, p.offset + (b.text ++ spelling ++ b'.text).length⟩
      dominant := some ⟨p.offset + b.text.length, p.offset + (b.text ++ spelling).length⟩
      parent := p.parent
      depth := p.depth
      data := data } :: (b.regions p.inside ++ b'.regions (b.second spelling p))

/-- The first part of a region, with a bracket before it if there are brackets. -/
def opened (brackets : Bool) (b : Block α) : Block α :=
  if brackets then (ofText ['(']).append b else b

/-- The second part of a region, with a bracket after it if there are brackets. -/
def closed (brackets : Bool) (b : Block α) : Block α :=
  if brackets then b.append (.ofText [')']) else b

end Block

/-- The region of an operator with its operands. -/
def Fixity.block (fixity : Fixity) (brackets : Bool) (path : Path) (spelling : List Char)
    (operand : Nat → Block Path) : Block Path :=
  match fixity with
  | .prefixed =>
    .region path (.opened brackets (.ofText [])) spelling (.closed brackets (operand 0))
  | .postfixed =>
    .region path (.opened brackets (operand 0)) spelling (.closed brackets (.ofText []))
  | .infixed =>
    .region path (.opened brackets ((operand 0).append (.ofText [' ']))) spelling
      (.closed brackets ((Block.ofText [' ']).append (operand 1)))

namespace Language

mutual
/-- The block that is written for the sub-formula at a path. -/
def block (lang : Language) (style : Style) (brackets : Bool) (path : Path) : Formula → Block Path
  | .atom s =>
    .region path (.opened brackets (.ofText [])) s.name.toList (.closed brackets (.ofText []))
  | .app op fs =>
    op.fixity.block brackets path (lang.spelling op style).toList fun i =>
      ((operandBlocks lang style op.fixity path 0 fs)[i]?).getD (.ofText [])

/-- The blocks that are written for each of the operands from position `i` on. -/
def operandBlocks (lang : Language) (style : Style) (fixity : Fixity) (path : Path) (i : Nat) :
    List Formula → List (Block Path)
  | [] => []
  | f :: fs =>
    block lang style (fixity.needsBrackets f) (path ++ [i]) f ::
      operandBlocks lang style fixity path (i + 1) fs
end

end Language

/-! ### What edits write -/

variable {α : Type} {before after : List (Edit α)} {b b' : Block α}

/-- Where the next character or region of a draft is written. -/
def Draft.place (d : Draft α) : Place :=
  ⟨d.position, d.regions.length, d.openRegions.head?, d.openRegions.length⟩

/-- In any draft without an open dominant span, the edits append a block. -/
def Writes (edits : List (Edit α)) (b : Block α) : Prop :=
  ∀ d : Draft α, d.dominant = none →
    ∃ d', d.applyAll edits = .ok d' ∧
      d'.text.toList = d.text.toList ++ b.text ∧ d'.position = d.position + b.text.length ∧
      d'.regions = d.regions ++ b.regions d.place ∧ d'.openRegions = d.openRegions ∧
      d'.dominant = none

theorem place_eq_after {d d' : Draft α} (hposition : d'.position = d.position + b.text.length)
    (hregions : d'.regions = d.regions ++ b.regions d.place)
    (hopen : d'.openRegions = d.openRegions) : d'.place = d.place.after b := by
  simp [Draft.place, Place.after, hposition, hregions, hopen]

theorem Draft.position_append (d : Draft α) (text : String) :
    (d.append text).position = d.position + text.toList.length := by
  unfold Draft.append
  induction text.toList generalizing d with
  | nil => rfl
  | cons c cs ih =>
    rw [List.foldl_cons, ih, List.length_cons]
    simp only [position, push, List.length_append, List.length_singleton]
    omega

theorem applyAll_append (d : Draft α) (before after : List (Edit α)) :
    d.applyAll (before ++ after) = d.applyAll before >>= fun d' => d'.applyAll after :=
  List.foldlM_append

theorem applyAll_cons {d d' : Draft α} {edit : Edit α} (h : d.apply edit = .ok d')
    (edits : List (Edit α)) : d.applyAll (edit :: edits) = d'.applyAll edits := by
  show d.apply edit >>= (fun d' => d'.applyAll edits) = _
  rw [h]
  rfl

theorem writes_nil : Writes ([] : List (Edit α)) (.ofText []) :=
  fun d hd => ⟨d, rfl, by simp [Block.ofText], rfl, by simp [Block.ofText], rfl, hd⟩

theorem writes_text (text : String) :
    Writes ([.append text] : List (Edit α)) (.ofText text.toList) := by
  intro d hd
  exact ⟨d.append text, rfl, d.toList_text_append text, d.position_append text,
    by simp [Block.ofText], by simp, by simpa using hd⟩

theorem Writes.append (hb : Writes before b) (ha : Writes after b') :
    Writes (before ++ after) (b.append b') := by
  intro d hd
  obtain ⟨d₁, hrun₁, htext₁, hposition₁, hregions₁, hopen₁, hdominant₁⟩ := hb d hd
  obtain ⟨d₂, hrun₂, htext₂, hposition₂, hregions₂, hopen₂, hdominant₂⟩ := ha d₁ hdominant₁
  rw [place_eq_after hposition₁ hregions₁ hopen₁] at hregions₂
  refine ⟨d₂, ?_, ?_, ?_, ?_, hopen₂.trans hopen₁, hdominant₂⟩
  · rw [applyAll_append, hrun₁]
    exact hrun₂
  · rw [htext₂, htext₁, List.append_assoc]
    rfl
  · rw [hposition₂, hposition₁, Nat.add_assoc, ← List.length_append]
    rfl
  · rw [hregions₂, hregions₁, List.append_assoc]
    rfl

theorem modify_append_length {β : Type} (xs ys : List β) (y : β) (g : β → β) :
    (xs ++ y :: ys).modify xs.length g = xs ++ g y :: ys := by
  induction xs with
  | nil => rfl
  | cons x xs ih => simp [ih]

section InnermostRegion

variable {d : Draft α} {regions new : List (Region α)} {region : Region α} {outer : List Nat}
  (hdominant : d.dominant = none) (hregions : d.regions = regions ++ region :: new)
  (hopen : d.openRegions = regions.length :: outer)

include hdominant hregions hopen

/-- The dominant span of the innermost region is written if that region has none yet. -/
theorem apply_appendDominant (text : String) (hregion : region.dominant = none) :
    ∃ d', d.apply (.appendDominant text) = .ok d' ∧
      d'.text.toList = d.text.toList ++ text.toList ∧
      d'.position = d.position + text.toList.length ∧
      d'.regions = regions ++
        { region with dominant := some ⟨d.position, d.position + text.toList.length⟩ } :: new ∧
      d'.openRegions = d.openRegions ∧ d'.dominant = none := by
  let marked : Region α := { region with dominant := some ⟨d.position, d.position⟩ }
  let opened : Draft α :=
    { d with regions := regions ++ marked :: new, dominant := some regions.length }
  have hopened : d.openDominant = .ok opened := by
    simp [Draft.openDominant, hopen, hdominant, hregion, hregions, modify_append_length, opened,
      marked]
  let closed : Region α :=
    { region with dominant := some ⟨d.position, (opened.append text).position⟩ }
  let written : Draft α :=
    { opened.append text with regions := regions ++ closed :: new, dominant := none }
  have hclosed : (opened.append text).closeDominant = .ok written := by
    simp [Draft.closeDominant, opened, modify_append_length, written, closed, marked]
  have hposition : (opened.append text).position = d.position + text.toList.length :=
    opened.position_append text
  refine ⟨written, Except.bind_eq_ok.mpr ⟨opened, hopened, hclosed⟩,
    opened.toList_text_append text, hposition, ?_, opened.openRegions_append text, rfl⟩
  show regions ++ closed :: new = _
  rw [← hposition]

theorem apply_closeRegion :
    ∃ d', d.apply .closeRegion = .ok d' ∧ d'.text = d.text ∧ d'.position = d.position ∧
      d'.regions = regions ++
        { region with span := ⟨region.span.start, d.position⟩ } :: new ∧
      d'.openRegions = outer ∧ d'.dominant = none := by
  simp only [Draft.apply, Draft.closeRegion, hopen, hdominant, reduceCtorEq, if_false]
  refine ⟨_, rfl, rfl, rfl, ?_, rfl, rfl⟩
  simp [hregions, modify_append_length]

end InnermostRegion

/-- A region with one dominant span in it is written as a block. -/
theorem writes_region (data : α) (spelling : String) (hb : Writes before b) (ha : Writes after b') :
    Writes (.openRegion data :: (before ++ .appendDominant spelling :: after ++ [.closeRegion]))
      (.region data b spelling.toList b') := by
  intro d hd
  let region : Region α :=
    ⟨⟨d.position, d.position⟩, none, d.openRegions.head?, d.openRegions.length, data⟩
  have hinside : (d.openRegion data).place = d.place.inside := by
    simp [Draft.place, Draft.openRegion, Place.inside, Draft.position]
  obtain ⟨d₁, hrun₁, htext₁, hposition₁, hregions₁, hopen₁, hdominant₁⟩ := hb (d.openRegion data) hd
  have hregions₁' : d₁.regions = d.regions ++ region :: b.regions d.place.inside := by
    rw [hregions₁, hinside]
    simp [Draft.openRegion, region]
  obtain ⟨d₂, hrun₂, htext₂, hposition₂, hregions₂, hopen₂, hdominant₂⟩ :=
    apply_appendDominant hdominant₁ hregions₁' hopen₁ spelling rfl
  obtain ⟨d₃, hrun₃, htext₃, hposition₃, hregions₃, hopen₃, hdominant₃⟩ := ha d₂ hdominant₂
  have hplace₁ : d₁.place = d.place.inside.after b := by
    rw [place_eq_after hposition₁ hregions₁ hopen₁, hinside]
  have hcount₂ : d₂.regions.length = d₁.regions.length := by
    rw [hregions₂, hregions₁']
    simp
  have hsecond : d₂.place = b.second spelling.toList d.place := by
    have hplace₂ : d₂.place =
        { d₁.place with offset := d₁.place.offset + spelling.toList.length } := by
      simp [Draft.place, hposition₂, hcount₂, hopen₂]
    rw [hplace₂, hplace₁]
    simp [Block.second, Place.after, Block.append, Block.ofText, Nat.add_assoc]
  -- the region that is closed is the one that was opened first
  have hregions₃' : d₃.regions = d.regions ++
      { region with dominant := some ⟨d₁.position, d₁.position + spelling.toList.length⟩ } ::
        (b.regions d.place.inside ++ b'.regions (b.second spelling.toList d.place)) := by
    rw [hregions₃, hregions₂, hsecond]
    simp
  have hopen₃' : d₃.openRegions = d.regions.length :: d.openRegions := by
    rw [hopen₃, hopen₂, hopen₁]
    rfl
  obtain ⟨d₄, hrun₄, htext₄, hposition₄, hregions₄, hopen₄, hdominant₄⟩ :=
    apply_closeRegion hdominant₃ hregions₃' hopen₃'
  have hstart : d₁.position = d.position + b.text.length := hposition₁
  have hstop : d₃.position = d.position + (b.text ++ spelling.toList ++ b'.text).length := by
    rw [hposition₃, hposition₂, hstart]
    simp only [List.length_append]
    omega
  refine ⟨d₄, ?_, ?_, hposition₄.trans hstop, ?_, hopen₄, hdominant₄⟩
  · rw [applyAll_cons rfl, applyAll_append, applyAll_append, hrun₁]
    show (d₁.applyAll (.appendDominant spelling :: after) >>= fun d' =>
      d'.applyAll [.closeRegion]) = _
    rw [applyAll_cons hrun₂, hrun₃]
    exact applyAll_cons hrun₄ []
  · rw [htext₄, htext₃, htext₂, htext₁]
    simp [Draft.openRegion, Block.region]
  · rw [hregions₄, hstop, hstart]
    simp only [Block.region, List.length_append, region, Nat.add_assoc]
    rfl

/-! ### Formulas -/

theorem writes_regionEdits {before after : List (Edit Path)} {b b' : Block Path} (brackets : Bool)
    (path : Path) (spelling : String) (hb : Writes before b) (ha : Writes after b') :
    Writes (regionEdits brackets path (before ++ .appendDominant spelling :: after))
      (.region path (.opened brackets b) spelling.toList (.closed brackets b')) := by
  cases brackets with
  | false => exact writes_region path spelling hb ha
  | true =>
    have hwrites := writes_region path spelling ((writes_text "(").append hb)
      (ha.append (writes_text ")"))
    simpa [regionEdits, Block.opened, Block.closed] using hwrites

/-- Operands that write their blocks make an operator write its spelling among them. -/
theorem writes_layout (fixity : Fixity) (spelling : String) (brackets : Bool) (path : Path)
    {edits : List (List (Edit Path))} {operand : Nat → Block Path}
    (h : ∀ i : Nat, Writes ((edits[i]?).getD []) (operand i)) :
    Writes (regionEdits brackets path (fixity.layout spelling edits))
      (fixity.block brackets path spelling.toList operand) := by
  cases fixity with
  | prefixed => exact writes_regionEdits brackets path spelling writes_nil (h 0)
  | postfixed => exact writes_regionEdits brackets path spelling (h 0) writes_nil
  | infixed =>
    have hwrites := writes_regionEdits brackets path spelling ((h 0).append (writes_text " "))
      ((writes_text " ").append (h 1))
    simpa [Fixity.layout, Fixity.block] using hwrites

namespace Language

mutual
theorem writes_formulaEdits (lang : Language) (style : Style) (brackets : Bool) (path : Path) :
    (f : Formula) → Writes (lang.formulaEdits style brackets path f)
      (lang.block style brackets path f)
  | .atom s => writes_regionEdits brackets path s.name writes_nil writes_nil
  | .app op fs =>
    writes_layout op.fixity (lang.spelling op style) brackets path
      (writes_operandEdits lang style op.fixity path 0 fs)

theorem writes_operandEdits (lang : Language) (style : Style) (fixity : Fixity) (path : Path)
    (k : Nat) : (fs : List Formula) → (i : Nat) →
      Writes (((operandEdits lang style fixity path k fs)[i]?).getD [])
        (((operandBlocks lang style fixity path k fs)[i]?).getD (.ofText []))
  | [], i => by simpa [operandEdits, operandBlocks] using writes_nil
  | f :: fs, 0 => writes_formulaEdits lang style (fixity.needsBrackets f) (path ++ [k]) f
  | f :: fs, i + 1 => by
    simpa [operandEdits, operandBlocks] using
      writes_operandEdits lang style fixity path (k + 1) fs i
end

end Language

theorem Block.text_region {data : α} {spelling : List Char} (brackets : Bool) :
    (Block.region data (.opened brackets b) spelling (.closed brackets b')).text =
      bracketed brackets (b.text ++ spelling ++ b'.text) := by
  cases brackets <;> simp [Block.region, opened, closed, append, ofText, bracketed]

/-- The text of a block depends on the texts of the operands only. -/
theorem Fixity.text_block (fixity : Fixity) (brackets : Bool) (path : Path) (spelling : List Char)
    {operand : Nat → Block Path} {texts : List (List Char)}
    (h : ∀ i : Nat, (operand i).text = (texts[i]?).getD []) :
    (fixity.block brackets path spelling operand).text =
      bracketed brackets (fixity.spread spelling texts) := by
  cases fixity <;> rw [Fixity.block, Block.text_region] <;>
    simp [Fixity.spread, Block.append, Block.ofText, h]

namespace Language

mutual
theorem text_block (lang : Language) (style : Style) (brackets : Bool) (path : Path) :
    (f : Formula) → (lang.block style brackets path f).text = lang.written style brackets f
  | .atom s => by
    rw [block, Block.text_region]
    simp [Block.ofText, written]
  | .app op fs =>
    op.fixity.text_block brackets path _ (text_operandBlocks lang style op.fixity path 0 fs)

theorem text_operandBlocks (lang : Language) (style : Style) (fixity : Fixity) (path : Path)
    (k : Nat) : (fs : List Formula) → (i : Nat) →
      (((operandBlocks lang style fixity path k fs)[i]?).getD (.ofText [])).text =
        ((writtenOperands lang style fixity fs)[i]?).getD []
  | [], i => by simp [operandBlocks, writtenOperands, Block.ofText]
  | f :: fs, 0 => text_block lang style (fixity.needsBrackets f) (path ++ [k]) f
  | f :: fs, i + 1 => by
    simpa [operandBlocks, writtenOperands] using
      text_operandBlocks lang style fixity path (k + 1) fs i
end

/-- Every formula can be written, with the text and the regions of its block. -/
theorem exists_render (lang : Language) (f : Formula) (style : Style) :
    ∃ d, Draft.empty.applyAll (lang.formulaEdits style false [] f) = .ok d ∧
      lang.render f style = .ok ⟨d.text, d.boundaries, d.cells, d.regions⟩ ∧
      d.finish = .ok ⟨d.text, d.boundaries, d.cells, d.regions⟩ ∧
      d.text = String.ofList (lang.written style false f) ∧
      d.regions = (lang.block style false [] f).regions ⟨0, 0, none, 0⟩ := by
  obtain ⟨d, hrun, htext, -, hregions, hopen, hdominant⟩ :=
    writes_formulaEdits lang style false [] f Draft.empty rfl
  have hfinish : d.finish = .ok ⟨d.text, d.boundaries, d.cells, d.regions⟩ := by
    simp [Draft.finish, hdominant, hopen, Draft.empty]
  refine ⟨d, hrun, Except.bind_eq_ok.mpr ⟨d, hrun, hfinish⟩, hfinish, ?_, hregions⟩
  rw [← String.ofList_toList (s := d.text), htext, text_block]
  rfl

theorem format_eq (lang : Language) (f : Formula) (style : Style) :
    lang.format f style = .ok (String.ofList (lang.written style false f)) := by
  obtain ⟨d, -, hrender, -, htext, -⟩ := lang.exists_render f style
  -- the text of the result forgets the regions
  refine Except.bind_eq_ok.mpr ⟨_, hrender, ?_⟩
  rw [← htext]
  rfl

/-! ### Sequents -/

theorem toList_joinSequent (turnstile : String) (premises conclusions : List String) :
    (joinSequent turnstile premises conclusions).toList =
      around turnstile.toList (premises.map String.toList) (conclusions.map String.toList) := by
  unfold joinSequent around
  cases premises <;> cases conclusions <;> simp [String.toList_intercalate]

theorem formatAll_eq (lang : Language) (style : Style) (fs : List Formula) :
    lang.formatAll style fs = .ok (fs.map fun f => String.ofList (lang.written style false f)) := by
  induction fs with
  | nil => rfl
  | cons f fs ih =>
    exact Except.bind_eq_ok.mpr ⟨_, lang.format_eq f style, Except.bind_eq_ok.mpr ⟨_, ih, rfl⟩⟩

/-- Texts of premises and conclusions, joined. -/
theorem joinSequent_eq (lang : Language) (style : Style) (ps : List (List Char))
    (cs : List Formula) :
    joinSequent (lang.entailment.spelling style) (ps.map String.ofList)
        (cs.map fun f => String.ofList (lang.written style false f)) =
      String.ofList (around (lang.entailment.spelling style).toList ps
        (cs.map (lang.written style false))) := by
  rw [← String.ofList_toList (s := joinSequent _ _ _), toList_joinSequent]
  simp [Function.comp_def]

mutual
theorem formatForm_eq (lang : Language) (style : Style) : (p : Form) →
    lang.formatForm style p = .ok (String.ofList (lang.writtenForm style p))
  | .formula f => lang.format_eq f style
  | .sequent ps cs => by
    have hps := formatForms_eq lang style ps
    refine Except.bind_eq_ok.mpr ⟨_, hps, Except.bind_eq_ok.mpr ⟨_, formatAll_eq lang style cs, ?_⟩⟩
    rw [joinSequent_eq]
    simp [writtenForm, pure, Except.pure, String.append_assoc]

theorem formatForms_eq (lang : Language) (style : Style) : (ps : List Form) →
    lang.formatForms style ps = .ok ((lang.writtenForms style ps).map String.ofList)
  | [] => rfl
  | p :: ps => by
    have hp := formatForm_eq lang style p
    have hps := formatForms_eq lang style ps
    exact Except.bind_eq_ok.mpr ⟨_, hp, Except.bind_eq_ok.mpr ⟨_, hps, rfl⟩⟩
end

/-- Every sequent can be written. -/
theorem formatSequent_eq (lang : Language) (s : Sequent) (style : Style) :
    lang.formatSequent s style = .ok (String.ofList (lang.writtenSequent style s)) := by
  have hps := formatForms_eq lang style s.premises
  have hcs := formatAll_eq lang style s.conclusions
  refine Except.bind_eq_ok.mpr ⟨_, hps, Except.bind_eq_ok.mpr ⟨_, hcs, ?_⟩⟩
  rw [joinSequent_eq]
  rfl

end Language

end NaturalDeduction
