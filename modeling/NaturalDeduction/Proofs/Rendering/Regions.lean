import NaturalDeduction.Proofs.AnnotatedText.Exact
import NaturalDeduction.Proofs.Formula.Subformulas
import NaturalDeduction.Proofs.RoundTrip.Names

/-! # Regions of a written formula

    A formula in which every operator has as many operands as it has room for
    is written with one region for each sub-formula, in the order of the list of
    all sub-formulas. A region holds the text of its sub-formula, in brackets
    where the operator around it needs them, and its dominant span holds the
    name of the atom or the spelling of the operator.

    The regions of a sub-formula are described at every place of a text at
    which the sub-formula is written (`Described`), so that the regions of the
    operands can be put together to those of the formula.
-/

namespace NaturalDeduction

/-! ### What is expected -/

/-- Every operator has as many operands as it has room for. -/
def Formula.Saturated (f : Formula) : Prop := f.Over (fun _ => True) fun _ => True

/-- Does the sub-formula at a path stand in brackets? For the whole formula this is given. -/
def Formula.bracketsAt (brackets : Bool) : Formula → Path → Bool
  | _, [] => brackets
  | .atom _, _ :: _ => false
  | .app op fs, i :: p =>
    match fs[i]? with
    | some f => f.bracketsAt (op.fixity.needsBrackets f) p
    | none => false

/-- What is written for a formula itself, without its operands: the name of an atom, or the spelling
    of an operator. -/
def Language.sign (lang : Language) (style : Style) : Formula → String
  | .atom s => s.name
  | .app op _ => lang.spelling op style

/-- A text with a region for each sub-formula. -/
structure AnnotatedText.Addresses (t : AnnotatedText Path) (lang : Language) (style : Style)
    (f : Formula) : Prop where
  /-- There is one region for each sub-formula, with its path, in the same order. -/
  data_eq : t.regions.map Region.data = f.subformulas.map Prod.fst
  /-- No two regions have the same path. -/
  nodup : (t.regions.map Region.data).Nodup
  /-- Paths of regions lead to sub-formulas. -/
  valid : ∀ r ∈ t.regions, ∃ g, f.at? r.data = some g
  /-- A region holds the text of its sub-formula, or that text in brackets. -/
  text_eq : ∀ r ∈ t.regions, ∀ g, f.at? r.data = some g →
    ∃ text, lang.format g style = .ok text ∧
      t.regionText? r = some (if f.bracketsAt false r.data then "(" ++ text ++ ")" else text)
  /-- The region of the whole formula comes first, spans the whole text and has no brackets. -/
  root : ∃ r, t.regions[0]? = some r ∧ r.data = [] ∧ r.parent = none ∧ r.span = ⟨0, t.length⟩ ∧
    t.regionText? r = some t.text ∧ lang.format f style = .ok t.text
  /-- The parent of a region has the path without its last position. -/
  parent_eq : ∀ r ∈ t.regions, r.data ≠ [] →
    ∃ (j : Nat) (r' : Region Path), r.parent = some j ∧ t.regions[j]? = some r' ∧
      r'.data = r.data.dropLast
  /-- The dominant text is the name of the atom or the spelling of the operator. -/
  sign_eq : ∀ r ∈ t.regions, ∀ g, f.at? r.data = some g →
    t.dominantText? r = some (lang.sign style g)
  /-- Every character lies in the text of a sub-formula, and what is found for it is the deepest one
      around it. -/
  enclosing : ∀ offset, offset < t.length →
    ∃ i r g, t.enclosingAt? offset = some r ∧ t.Deepest offset i r ∧ f.at? r.data = some g
  /-- The owner of a character is the sub-formula whose name or spelling it is part of. -/
  owner : ∀ offset r, t.ownerAt? offset = some r ↔
    r ∈ t.regions ∧ ∃ g s, f.at? r.data = some g ∧ r.dominant = some s ∧
      s.contains offset = true ∧ t.slice? s = some (lang.sign style g)

/-! ### Parts of a text -/

/-- The characters stand in a text from an offset on. -/
def Occurs (part : List Char) (offset : Nat) (cs : List Char) : Prop :=
  ∃ front back, cs = front ++ part ++ back ∧ front.length = offset

namespace Occurs

variable {part part' cs : List Char} {offset : Nat}

theorem left (h : Occurs (part ++ part') offset cs) : Occurs part offset cs := by
  obtain ⟨front, back, rfl, hlength⟩ := h
  exact ⟨front, part' ++ back, by simp, hlength⟩

theorem right (h : Occurs (part ++ part') offset cs) :
    Occurs part' (offset + part.length) cs := by
  obtain ⟨front, back, rfl, hlength⟩ := h
  exact ⟨front ++ part, back, by simp, by rw [List.length_append, hlength]⟩

theorem characters_eq (h : Occurs part offset cs) :
    (Span.mk offset (offset + part.length)).characters cs = part := by
  obtain ⟨front, back, rfl, rfl⟩ := h
  rw [Span.characters, Span.filter_zipIdx, Nat.sub_zero, Nat.sub_zero, ← List.length_append,
    List.take_left, List.drop_left]

end Occurs

/-! ### Described regions -/

section

variable {lang : Language} {style : Style} {cs : List Char} {f g : Formula} {brackets : Bool}
  {path : Path} {p : Place} {regions regions' : List (Region Path)} {r : Region Path}
  {entries entries' : List (Path × Formula)} {parent index i : Nat}

/-- The region holds the text of a formula, in brackets or not, and its dominant span the sign of
    the formula. -/
structure Region.Shows (r : Region Path) (lang : Language) (style : Style) (cs : List Char)
    (brackets : Bool) (g : Formula) : Prop where
  text : r.span.characters cs = lang.written style brackets g
  sign : ∃ s, r.dominant = some s ∧ s.characters cs = (lang.sign style g).toList

/-- The regions show some of the sub-formulas of `f`, which stands at a path and in brackets or
    not. -/
def ShowsAll (lang : Language) (style : Style) (cs : List Char) (f : Formula) (brackets : Bool)
    (path : Path) (regions : List (Region Path)) (entries : List (Path × Formula)) : Prop :=
  List.Forall₂ (fun r e => r.data = path ++ e.1 ∧
    r.Shows lang style cs (f.bracketsAt brackets e.1) e.2) regions entries

/-- Each region is inside the region `parent`, which has the path, or inside another one of the
    list, which starts at `index`. -/
def Below (parent index : Nat) (path : Path) (regions : List (Region Path)) : Prop :=
  ∀ r ∈ regions, (∃ i, r.data = path ++ [i] ∧ r.parent = some parent) ∨
    ∃ (j : Nat) (r' : Region Path) (i : Nat), regions[j]? = some r' ∧
      r.parent = some (index + j) ∧ r.data = r'.data ++ [i]

/-- The regions are those of a formula that is written at a place of a text. -/
structure Described (lang : Language) (style : Style) (cs : List Char) (f : Formula)
    (brackets : Bool) (path : Path) (p : Place) (regions : List (Region Path)) : Prop where
  shows : ShowsAll lang style cs f brackets path regions f.subformulas
  first : ∃ r rest, regions = r :: rest ∧ r.data = path ∧ r.parent = p.parent ∧
    r.span = ⟨p.offset, p.offset + (lang.written style brackets f).length⟩ ∧
    Below p.index (p.index + 1) path rest

theorem Below.append (h : Below parent index path regions)
    (h' : Below parent (index + regions.length) path regions') :
    Below parent index path (regions ++ regions') := by
  intro r hr
  rcases List.mem_append.mp hr with hmem | hmem
  · rcases h r hmem with hroot | ⟨j, r', i, hj, hparent, hdata⟩
    · exact .inl hroot
    · refine .inr ⟨j, r', i, ?_, hparent, hdata⟩
      rw [List.getElem?_append_left (List.getElem?_eq_some_iff.mp hj).1, hj]
  · rcases h' r hmem with hroot | ⟨j, r', i, hj, hparent, hdata⟩
    · exact .inl hroot
    · refine .inr ⟨regions.length + j, r', i, ?_, by rw [hparent, Nat.add_assoc], hdata⟩
      rw [List.getElem?_append_right (Nat.le_add_right _ _), Nat.add_sub_cancel_left, hj]

/-- The regions of an operand are below that of the operator. -/
theorem Described.below (h : Described lang style cs g brackets (path ++ [i]) p regions)
    (hparent : p.parent = some parent) : Below parent p.index path regions := by
  obtain ⟨r₀, rest, rfl, hdata, hr₀, -, hrest⟩ := h.first
  intro r hr
  rcases List.mem_cons.mp hr with rfl | hmem
  · exact .inl ⟨i, hdata, hr₀.trans hparent⟩
  · right
    rcases hrest r hmem with ⟨k, hk, hparent'⟩ | ⟨j, r', k, hj, hparent', hdata'⟩
    · exact ⟨0, r₀, k, rfl, hparent', by rw [hk, hdata]⟩
    · exact ⟨j + 1, r', k, hj, by rw [hparent', Nat.add_right_comm, Nat.add_assoc], hdata'⟩

theorem ShowsAll.exists_entry (h : ShowsAll lang style cs f brackets path regions entries)
    (hr : r ∈ regions) :
    ∃ e ∈ entries, r.data = path ++ e.1 ∧
      r.Shows lang style cs (f.bracketsAt brackets e.1) e.2 := by
  induction h with
  | nil => cases hr
  | @cons r' e _ entries hfirst _ ih =>
    rcases List.mem_cons.mp hr with rfl | hmem
    · exact ⟨e, List.mem_cons_self, hfirst⟩
    · obtain ⟨e', he', hshows⟩ := ih hmem
      exact ⟨e', List.mem_cons_of_mem e he', hshows⟩

/-- What the regions of an operand show is part of what those of the formula show. -/
theorem Described.showsAll {op : Operator} {fs : List Formula} {outer : Bool}
    (h : Described lang style cs g (op.fixity.needsBrackets g) (path ++ [i]) p regions)
    (hoperand : fs[i]? = some g) :
    ShowsAll lang style cs (.app op fs) outer path regions
      (g.subformulas.map fun (q, k) => (i :: q, k)) := by
  refine List.forall₂_map_right_iff.mpr (h.shows.imp ?_)
  rintro r ⟨q, k⟩ ⟨hdata, hshows⟩
  refine ⟨by rw [hdata, List.append_assoc]; rfl, ?_⟩
  simpa only [Formula.bracketsAt, hoperand] using hshows

end

/-! ### Blocks -/

section

variable {lang : Language} {style : Style} {cs : List Char} {f : Formula} {brackets : Bool}
  {path : Path} {p : Place} {spelling : String} {b b' : Block Path}

@[simp] theorem Block.regions_append_ofText (b : Block Path) (text : List Char) (p : Place) :
    (b.append (.ofText text)).regions p = b.regions p := List.append_nil _

@[simp] theorem Block.regions_closed (brackets : Bool) (b : Block Path) (p : Place) :
    (b.closed brackets).regions p = b.regions p := by
  cases brackets with
  | false => rfl
  | true => exact Block.regions_append_ofText b _ p

/-- The place after the opening bracket of a region, if there is one. -/
def Place.first (p : Place) (brackets : Bool) : Place :=
  { p.inside with offset := p.offset + if brackets then 1 else 0 }

@[simp] theorem Block.regions_opened (brackets : Bool) (b : Block Path) (p : Place) :
    (b.opened brackets).regions p.inside = b.regions (p.first brackets) := by
  cases brackets <;> rfl

/-- The place of the second part of a region. -/
def Place.second (p : Place) (brackets : Bool) (b : Block Path) (spelling : String) : Place :=
  (b.opened brackets).second spelling.toList p

theorem Place.second_index :
    (p.second brackets b spelling).index =
      p.index + 1 + (b.regions (p.first brackets)).length := by
  simp only [second, Block.second, after, Block.regions_append_ofText, Block.regions_opened]
  rfl

/-- The parts of a region stand in the text where the places say. -/
theorem Block.occurs_parts
    (h : Occurs (Block.region path (b.opened brackets) spelling.toList (b'.closed brackets)).text
      p.offset cs) :
    Occurs b.text (p.first brackets).offset cs ∧
      Occurs spelling.toList (p.offset + (b.opened brackets).text.length) cs ∧
      Occurs b'.text (p.second brackets b spelling).offset cs := by
  have hspelling := (Occurs.left h).right
  have hfirst := (Occurs.left h).left
  have hsecond := Occurs.right h
  refine ⟨?_, hspelling, ?_⟩
  · cases brackets with
    | false => exact hfirst
    | true => exact Occurs.right hfirst
  · cases brackets with
    | false => exact hsecond
    | true => exact Occurs.left hsecond

/-- The region of a formula, with the regions of its operands in the two parts. -/
theorem described_region {entries entries' : List (Path × Formula)}
    (htext : (Block.region path (b.opened brackets) spelling.toList (b'.closed brackets)).text =
      lang.written style brackets f)
    (hoccurs : Occurs (lang.written style brackets f) p.offset cs)
    (hsign : spelling = lang.sign style f)
    (hentries : f.subformulas = ([], f) :: (entries ++ entries'))
    (hshows : ShowsAll lang style cs f brackets path (b.regions (p.first brackets)) entries)
    (hshows' : ShowsAll lang style cs f brackets path
      (b'.regions (p.second brackets b spelling)) entries')
    (hbelow : Below p.index (p.index + 1) path (b.regions (p.first brackets)))
    (hbelow' : Below p.index (p.second brackets b spelling).index path
      (b'.regions (p.second brackets b spelling))) :
    Described lang style cs f brackets path p
      ((Block.region path (b.opened brackets) spelling.toList (b'.closed brackets)).regions p) := by
  have hparts := Block.occurs_parts (htext ▸ hoccurs)
  -- the region of the formula itself comes first, then those of the two parts
  have hregions : (Block.region path (b.opened brackets) spelling.toList
      (b'.closed brackets)).regions p =
      { span := ⟨p.offset, p.offset + (lang.written style brackets f).length⟩
        dominant := some ⟨p.offset + (b.opened brackets).text.length,
          p.offset + ((b.opened brackets).text ++ spelling.toList).length⟩
        parent := p.parent
        depth := p.depth
        data := path } ::
        (b.regions (p.first brackets) ++ b'.regions (p.second brackets b spelling)) := by
    rw [← htext]
    simp only [Block.region, Block.regions_opened, Block.regions_closed]
    rfl
  rw [hregions]
  constructor
  case shows =>
    rw [hentries]
    refine .cons ⟨(List.append_nil path).symm, hoccurs.characters_eq, _, rfl, ?_⟩
      (List.rel_append hshows hshows')
    rw [← hsign, List.length_append, ← Nat.add_assoc]
    exact hparts.2.1.characters_eq
  case first =>
    refine ⟨_, _, rfl, rfl, rfl, rfl, hbelow.append ?_⟩
    have hindex : (p.second brackets b spelling).index = _ := Place.second_index
    rw [← hindex]
    exact hbelow'

theorem showsAll_nil : ShowsAll lang style cs f brackets path [] [] := .nil

theorem below_nil (parent index : Nat) (path : Path) : Below parent index path [] := by
  intro r hr
  cases hr

theorem occurs_block (brackets : Bool) (path : Path) :
    Occurs (lang.block style brackets path f).text p.offset cs ↔
      Occurs (lang.written style brackets f) p.offset cs := by
  rw [lang.text_block style brackets path f]

/-- A formula is described by its regions wherever it is written. -/
theorem described_block (hf : f.Saturated) (brackets : Bool) (path : Path) (p : Place)
    (hoccurs : Occurs (lang.written style brackets f) p.offset cs) :
    Described lang style cs f brackets path p
      ((lang.block style brackets path f).regions p) := by
  unfold Formula.Saturated at hf
  -- the places of the operands are those at which their texts stand
  induction hf using Formula.Over.shapes generalizing brackets path p with
  | @atom s _ =>
    have htext := lang.text_block style brackets path (.atom s)
    exact described_region htext hoccurs rfl rfl showsAll_nil showsAll_nil (below_nil _ _ _)
      (below_nil _ _ _)
  | @prefixed name g _ hg _ ih =>
    obtain ⟨-, -, hsecond⟩ := Block.occurs_parts ((occurs_block brackets path).mpr hoccurs)
    have hoperand := ih _ (path ++ [0]) _ ((occurs_block _ (path ++ [0])).mp hsecond)
    have htext := lang.text_block style brackets path (.app ⟨name, .prefixed⟩ [g])
    have hentries : (Formula.app ⟨name, .prefixed⟩ [g]).subformulas =
        ([], .app ⟨name, .prefixed⟩ [g]) ::
          ([] ++ g.subformulas.map fun (q, k) => (0 :: q, k)) := by
      simp [Formula.subformulas, Formula.subformulasFrom]
    exact described_region htext hoccurs rfl hentries showsAll_nil (hoperand.showsAll rfl)
      (below_nil _ _ _) (hoperand.below rfl)
  | @postfixed name g _ hg _ ih =>
    obtain ⟨hfirst, -, -⟩ := Block.occurs_parts ((occurs_block brackets path).mpr hoccurs)
    have hoperand := ih _ (path ++ [0]) _ ((occurs_block _ (path ++ [0])).mp hfirst)
    have htext := lang.text_block style brackets path (.app ⟨name, .postfixed⟩ [g])
    have hentries : (Formula.app ⟨name, .postfixed⟩ [g]).subformulas =
        ([], .app ⟨name, .postfixed⟩ [g]) ::
          ((g.subformulas.map fun (q, k) => (0 :: q, k)) ++ []) := by
      simp [Formula.subformulas, Formula.subformulasFrom]
    exact described_region htext hoccurs rfl hentries (hoperand.showsAll rfl) showsAll_nil
      (hoperand.below rfl) (below_nil _ _ _)
  | @infixed name g k _ hg hk _ ihg ihk =>
    obtain ⟨hfirst, -, hsecond⟩ := Block.occurs_parts ((occurs_block brackets path).mpr hoccurs)
    have hleft := ihg _ (path ++ [0]) _ ((occurs_block _ (path ++ [0])).mp hfirst.left)
    -- the right operand stands after a blank
    have hright := ihk _ (path ++ [1]) (Place.after _ (Block.ofText [' '] : Block Path))
      ((occurs_block _ (path ++ [1])).mp hsecond.right)
    have htext := lang.text_block style brackets path (.app ⟨name, .infixed⟩ [g, k])
    have hentries : (Formula.app ⟨name, .infixed⟩ [g, k]).subformulas =
        ([], .app ⟨name, .infixed⟩ [g, k]) ::
          ((g.subformulas.map fun (q, h) => (0 :: q, h)) ++
            k.subformulas.map fun (q, h) => (1 :: q, h)) := by
      simp [Formula.subformulas, Formula.subformulasFrom]
    refine described_region htext hoccurs rfl hentries ?_ ?_ ?_ ?_
    · rw [Block.regions_append_ofText]
      exact hleft.showsAll rfl
    · exact hright.showsAll rfl
    · rw [Block.regions_append_ofText]
      exact hleft.below rfl
    · exact hright.below rfl

end

/-! ### Whole texts -/

theorem Draft.Addressed.applyAll {α : Type} {d d' : Draft α} (h : d.Addressed)
    {edits : List (Edit α)} (hrun : d.applyAll edits = .ok d') : d'.Addressed := by
  induction edits generalizing d with
  | nil =>
    cases hrun
    exact h
  | cons edit edits ih =>
    obtain ⟨d₁, hfirst, hrest⟩ := Except.bind_eq_ok.mp hrun
    exact ih (h.apply hfirst) hrest

theorem Draft.Addressed.exact_of_finish {α : Type} {d : Draft α} {t : AnnotatedText α}
    (h : d.Addressed) (hfinish : d.finish = .ok t) : t.Exact := by
  obtain ⟨hopen, hdominant, rfl⟩ := Draft.finish_eq_ok hfinish
  unfold Draft.Addressed at h
  rw [hopen, hdominant] at h
  exact h.toExact

/-- What is written for a formula, as a string. -/
theorem Language.ofList_written (lang : Language) (style : Style) (brackets : Bool) (f : Formula) :
    ∃ text, lang.format f style = .ok text ∧
      String.ofList (lang.written style brackets f) =
        if brackets then "(" ++ text ++ ")" else text := by
  refine ⟨_, lang.format_eq f style, ?_⟩
  cases brackets with
  | false => rfl
  | true =>
    rw [written_true, String.ofList_append, String.ofList_append, ← String.append_assoc]
    rfl

namespace AnnotatedText

variable {t : AnnotatedText Path} {lang : Language} {style : Style} {f g : Formula}
  {r : Region Path}

/-- A region of a described text shows the sub-formula that its path leads to. -/
theorem shows_of_described
    (h : Described lang style t.text.toList f false [] ⟨0, 0, none, 0⟩ t.regions)
    (hr : r ∈ t.regions) :
    ∃ g, f.at? r.data = some g ∧
      r.Shows lang style t.text.toList (f.bracketsAt false r.data) g := by
  obtain ⟨⟨q, g⟩, hmem, hdata, hshows⟩ := h.shows.exists_entry hr
  obtain rfl : r.data = q := hdata
  exact ⟨g, (Formula.mem_subformulas_iff f).mp hmem, hshows⟩

/-- The parent of the region of an operand is the region of the operator. -/
theorem parent_of_described
    (h : Described lang style t.text.toList f false [] ⟨0, 0, none, 0⟩ t.regions)
    (hr : r ∈ t.regions) (hne : r.data ≠ []) :
    ∃ (j : Nat) (r' : Region Path), r.parent = some j ∧ t.regions[j]? = some r' ∧
      r'.data = r.data.dropLast := by
  obtain ⟨root, rest, hregions, hpath, -, -, hbelow⟩ := h.first
  rw [hregions] at hr
  rcases List.mem_cons.mp hr with rfl | hmem
  · exact absurd hpath hne
  · rcases hbelow r hmem with ⟨i, hi, hfirst⟩ | ⟨j, r', i, hj, hlater, hi⟩
    · exact ⟨0, root, hfirst, by rw [hregions]; rfl, by rw [hi, hpath]; rfl⟩
    · refine ⟨0 + 1 + j, r', hlater, ?_, by rw [hi, List.dropLast_concat]⟩
      rw [hregions, Nat.zero_add, Nat.add_comm]
      exact hj

/-- A region that spans the whole text is around every character. -/
theorem Exact.exists_enclosing (hexact : t.Exact) (hr : r ∈ t.regions)
    (hspan : r.span = ⟨0, t.length⟩) {offset : Nat} (hoffset : offset < t.length) :
    ∃ i r', t.enclosingAt? offset = some r' ∧ t.Deepest offset i r' := by
  have hsome : t.enclosingAt? offset ≠ none := by
    rw [Ne, hexact.enclosing_none_iff]
    intro hnone
    refine hnone r hr ?_
    rw [hspan, Span.contains_iff]
    exact ⟨Nat.zero_le _, hoffset⟩
  obtain ⟨r', hr'⟩ := Option.ne_none_iff_exists'.mp hsome
  obtain ⟨i, hdeepest⟩ := (hexact.enclosing_iff offset r').mp hr'
  exact ⟨i, r', hr', hdeepest⟩

theorem Exact.ownerAt?_eq_some_iff (hexact : t.Exact) {offset : Nat} :
    t.ownerAt? offset = some r ↔
      r ∈ t.regions ∧ ∃ s, r.dominant = some s ∧ s.contains offset = true := by
  constructor
  · intro h
    obtain ⟨i, hindex, hi⟩ := Option.bind_eq_some_iff.mp h
    obtain ⟨r', s, hi', hs, hcontains⟩ := (hexact.owner_iff offset i).mp hindex
    obtain rfl : r = r' := Option.some.inj (hi.symm.trans hi')
    exact ⟨List.mem_of_getElem? hi, s, hs, hcontains⟩
  · rintro ⟨hr, s, hs, hcontains⟩
    obtain ⟨i, hi⟩ := List.getElem?_of_mem hr
    have hindex := (hexact.owner_iff offset i).mpr ⟨r, s, hi, hs, hcontains⟩
    exact Option.bind_eq_some_iff.mpr ⟨i, hindex, hi⟩

/-- A text is addressed by what describes its regions and characters. -/
theorem addresses_of_described (hexact : t.Exact)
    (htext : t.text = String.ofList (lang.written style false f))
    (h : Described lang style t.text.toList f false [] ⟨0, 0, none, 0⟩ t.regions) :
    t.Addresses lang style f := by
  have hdata : t.regions.map Region.data = f.subformulas.map Prod.fst := by
    have hsame := h.shows.imp fun r e hre => (show r.data = e.1 from hre.1)
    have hmaps := List.forall₂_map_right_iff.mpr (List.forall₂_map_left_iff.mpr hsame)
    rwa [List.forall₂_eq_eq_eq] at hmaps
  have hlength : (lang.written style false f).length = t.length := by
    rw [hexact.length_eq, htext, String.toList_ofList]
  -- the path of a region leads to one sub-formula only
  have hshows : ∀ r ∈ t.regions, ∀ g, f.at? r.data = some g →
      r.Shows lang style t.text.toList (f.bracketsAt false r.data) g := by
    intro r hr g hg
    obtain ⟨g', hg', hshows⟩ := shows_of_described h hr
    obtain rfl : g' = g := Option.some.inj (hg'.symm.trans hg)
    exact hshows
  have hvalid : ∀ r ∈ t.regions, ∃ g, f.at? r.data = some g := by
    intro r hr
    obtain ⟨g, hg, -⟩ := shows_of_described h hr
    exact ⟨g, hg⟩
  have hsign : ∀ r ∈ t.regions, ∀ g, f.at? r.data = some g →
      ∃ s, r.dominant = some s ∧ t.slice? s = some (lang.sign style g) := by
    intro r hr g hg
    obtain ⟨s, hs, hcharacters⟩ := (hshows r hr g hg).sign
    refine ⟨s, hs, ?_⟩
    rw [hexact.slice?_eq, hcharacters, String.ofList_toList]
  obtain ⟨root, rest, hregions, hpath, hparent, hspan, -⟩ := h.first
  have hspan' : root.span = ⟨0, t.length⟩ := by
    rw [hspan, hlength]
    simp
  have hroot : root ∈ t.regions := hregions ▸ List.mem_cons_self
  constructor
  case data_eq => exact hdata
  case nodup =>
    rw [hdata]
    exact f.nodup_subformulas
  case valid => exact hvalid
  case text_eq =>
    intro r hr g hg
    obtain ⟨text, hformat, hwritten⟩ :=
      lang.ofList_written style (f.bracketsAt false r.data) g
    refine ⟨text, hformat, ?_⟩
    rw [regionText?, hexact.slice?_eq, (hshows r hr g hg).text, hwritten]
  case root =>
    have hwhole := (hshows root hroot f (by rw [hpath, Formula.at?_nil])).text
    refine ⟨root, by rw [hregions]; rfl, hpath, hparent, hspan', ?_, ?_⟩
    · rw [regionText?, hexact.slice?_eq, hwhole, hpath, htext]
      rfl
    · rw [htext]
      exact lang.format_eq f style
  case parent_eq => exact fun r hr hne => parent_of_described h hr hne
  case sign_eq =>
    intro r hr g hg
    obtain ⟨s, hs, hslice⟩ := hsign r hr g hg
    rw [dominantText?, hs]
    exact hslice
  case enclosing =>
    intro offset hoffset
    obtain ⟨i, r, henclosing, hdeepest⟩ := hexact.exists_enclosing hroot hspan' hoffset
    obtain ⟨g, hg⟩ := hvalid r (List.mem_of_getElem? hdeepest.1)
    exact ⟨i, r, g, henclosing, hdeepest, hg⟩
  case owner =>
    intro offset r
    rw [hexact.ownerAt?_eq_some_iff]
    refine and_congr_right ?_
    intro hr
    constructor
    · rintro ⟨s, hs, hcontains⟩
      obtain ⟨g, hg⟩ := hvalid r hr
      obtain ⟨s', hs', hslice⟩ := hsign r hr g hg
      obtain rfl : s = s' := Option.some.inj (hs.symm.trans hs')
      exact ⟨g, s, hg, hs, hcontains, hslice⟩
    · rintro ⟨-, s, -, hs, hcontains, -⟩
      exact ⟨s, hs, hcontains⟩

end AnnotatedText

namespace Language

/-- **Rendering addresses exactly the sub-formulas.** Every formula can be rendered. If all
    operators in it have as many operands as they have room for, then the regions of the text are
    those of the sub-formulas, one for each and in the same order. A region holds the text of its
    sub-formula, in brackets where these are needed, and the region of the whole formula holds the
    whole text; the parent of a region is the region of the path without its last position; the
    dominant text is the name of the atom or the spelling of the operator. So every character lies
    in the text of a sub-formula, the deepest of which is found for it, and the owner of a character
    is the sub-formula whose name or spelling it is part of. -/
theorem render_addresses (lang : Language) (style : Style) (f : Formula) :
    ∃ t, lang.render f style = .ok t ∧ (f.Saturated → t.Addresses lang style f) := by
  obtain ⟨d, hrun, hrender, hfinish, htext, hregions⟩ := lang.exists_render f style
  refine ⟨_, hrender, ?_⟩
  intro hf
  have hexact := (Draft.Addressed.empty.applyAll hrun).exact_of_finish hfinish
  refine AnnotatedText.addresses_of_described hexact htext ?_
  show Described lang style d.text.toList f false [] ⟨0, 0, none, 0⟩ d.regions
  rw [hregions]
  refine described_block hf false [] ⟨0, 0, none, 0⟩ ⟨[], [], ?_, rfl⟩
  rw [htext, String.toList_ofList]
  simp

/-- In `(~~P)! v N:A1:` the operand of the bang is the only one in brackets. -/
theorem render_addresses_sampleFormula :
    Familiar.sampleFormula.Saturated ∧
      ∃ t, Familiar.sampleBang.render Familiar.sampleFormula .ascii = .ok t ∧
      t.Addresses Familiar.sampleBang .ascii Familiar.sampleFormula ∧ t.text = "(~~P)! v N:A1:" ∧
      ∃ r ∈ t.regions, r.data = [0, 0] ∧ t.regionText? r = some "(~~P)" := by
  have hf : Familiar.sampleFormula.Saturated := by
    refine .binary trivial rfl (.unary trivial rfl ?_) (.unary trivial rfl (.atom trivial))
    exact .unary trivial rfl (.unary trivial rfl (.atom trivial))
  obtain ⟨t, ht, haddresses⟩ := render_addresses Familiar.sampleBang .ascii Familiar.sampleFormula
  have h := haddresses hf
  refine ⟨hf, t, ht, h, ?_, ?_⟩
  · obtain ⟨-, -, -, -, -, -, hformat⟩ := h.root
    rw [Familiar.sampleBang.format_eq] at hformat
    rw [← Except.ok.inj hformat]
    decide +kernel
  · have hdata : ([0, 0] : Path) ∈ t.regions.map Region.data := by
      rw [h.data_eq]
      decide +kernel
    obtain ⟨r, hr, hpath⟩ := List.mem_map.mp hdata
    refine ⟨r, hr, hpath, ?_⟩
    obtain ⟨text, hformat, htext⟩ := h.text_eq r hr _ (by rw [hpath]; rfl)
    rw [Familiar.sampleBang.format_eq] at hformat
    rw [htext, hpath, ← Except.ok.inj hformat]
    decide +kernel

end Language

end NaturalDeduction
