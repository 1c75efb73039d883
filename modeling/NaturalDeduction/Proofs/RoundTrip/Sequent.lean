import NaturalDeduction.Proofs.RoundTrip.Formula

/-! # Reading written sequents

    The text of a sequent puts commas and blanks between formulas, and brackets
    around nested sequents. All of these end the token before them, so that a
    sequent is read back if its formulas are. The grammar asks for at least one
    conclusion in every sequent.
-/

namespace NaturalDeduction

open Grammar

section

variable {lang : Language} {rest turnstile : List Char}

/-! ### Lists and turnstiles -/

theorem scansTo_comma (rest : List Char) :
    ScansTo lang [','] rest fun ts => ∃ t, ts = [t] ∧ t.kind = .comma :=
  scansTo_token (cuts_glyph (by decide) (by decide) (by decide) rest) fun _ => ⟨_, rfl, rfl⟩

theorem stops_comma (rest : List Char) : Stops (',' :: rest) :=
  stops_cons (by decide) (by decide) rest

theorem scansTo_turnstile (hturnstile : Cuts turnstile [])
    (hentails : lang.kindOf turnstile = .entails) (rest : List Char) :
    ScansTo lang turnstile (' ' :: rest) fun ts => ∃ t, ts = [t] ∧ t.kind = .entails :=
  scansTo_token (hturnstile.of_stops (stops_blank rest)) fun _ => ⟨_, rfl, hentails⟩

/-- Texts that are read as members of a list are read as the list when commas stand between
    them. -/
theorem scansTo_listed {α : Type} {text : α → List Char} {member : List Token → α → Prop}
    {xs : List α} (hxs : xs ≠ [])
    (hmember : ∀ x ∈ xs, ∀ rest, Stops rest → ScansTo lang (text x) rest fun ts => member ts x)
    (hrest : Stops rest) :
    ScansTo lang ([',', ' '].intercalate (xs.map text)) rest fun ts => Listed member ts xs := by
  induction xs with
  | nil => exact absurd rfl hxs
  | cons x xs ih =>
    cases xs with
    | nil =>
      rw [List.map_singleton, List.intercalate_singleton]
      exact (hmember x (by simp) rest hrest).imp fun ts hts => .last hts
    | cons y ys =>
      rw [List.map_cons, List.map_cons, List.intercalate_cons_cons, List.append_assoc,
        ← List.map_cons]
      have htail := ih (by simp) fun z hz => hmember z (List.mem_cons_of_mem x hz)
      have hseparator := (scansTo_comma _).append ((scansTo_blank _).append htail)
      refine ((hmember x (by simp) _ (stops_comma _)).append hseparator).imp ?_
      rintro _ ⟨ts, _, rfl, hts, _, _, rfl, ⟨t, rfl, ht⟩, _, us, rfl, rfl, hus⟩
      exact .more hts ht hus

/-- Texts of premises and conclusions are read as a sequent when a turnstile stands between them. -/
theorem scansTo_around (kind : SymbolKind) {premise : List Token → Form → Prop}
    {textOf : Form → List Char} {textOf' : Formula → List Char} {ps : List Form}
    {cs : List Formula} (hturnstile : Cuts turnstile [])
    (hentails : lang.kindOf turnstile = .entails)
    (hps : ∀ p ∈ ps, ∀ rest, Stops rest →
      ScansTo lang (textOf p) rest fun ts => premise ts p)
    (hne : cs ≠ [])
    (hcs : ∀ f ∈ cs, ∀ rest, Stops rest →
      ScansTo lang (textOf' f) rest fun ts => Derives kind .expression ts f)
    (hrest : Stops rest) :
    ScansTo lang (Language.around turnstile (ps.map textOf) (cs.map textOf')) rest
      fun ts => SequentOf kind premise ts ⟨ps, cs⟩ := by
  have hconclusions := (scansTo_blank _).append (scansTo_listed hne hcs hrest)
  have hright := (scansTo_turnstile hturnstile hentails _).append hconclusions
  -- without premises the turnstile comes first, with no blank before it
  by_cases hnil : ps = []
  · subst hnil
    have htext : Language.around turnstile ([].map textOf) (cs.map textOf') =
        turnstile ++ ([' '] ++ [',', ' '].intercalate (cs.map textOf')) := by
      simp [Language.around, hne]
    rw [htext]
    refine hright.imp ?_
    rintro _ ⟨_, _, rfl, ⟨t, rfl, ht⟩, _, us, rfl, rfl, hus⟩
    exact .unconditional ht hus
  · have htext : Language.around turnstile (ps.map textOf) (cs.map textOf') =
        [',', ' '].intercalate (ps.map textOf) ++
          ([' '] ++ (turnstile ++ ([' '] ++ [',', ' '].intercalate (cs.map textOf')))) := by
      simp [Language.around, hnil, hne]
    rw [htext]
    have hmiddle := (scansTo_blank _).append hright
    refine ((scansTo_listed hnil hps (stops_blank _)).append hmiddle).imp ?_
    rintro _ ⟨ts, _, rfl, hts, _, _, rfl, rfl, _, _, rfl, ⟨t, rfl, ht⟩, _, us, rfl, rfl, hus⟩
    exact .conditional hts ht hus

end

/-! ### Sequents of a language -/

/-- The premise is made of formulas over some operators and atoms, and every sequent nested in it
    has a conclusion. -/
inductive Form.Over (operators : Operator → Prop) (atoms : Symbol → Prop) : Form → Prop where
  | formula {f : Formula} : f.Over operators atoms → Over operators atoms (.formula f)
  | sequent {ps : List Form} {cs : List Formula} :
      (∀ p ∈ ps, Over operators atoms p) → cs ≠ [] → (∀ f ∈ cs, f.Over operators atoms) →
        Over operators atoms (.sequent ps cs)

/-- The sequent is made of formulas over some operators and atoms, and it has a conclusion, as has
    every sequent nested in it. -/
def Sequent.Over (operators : Operator → Prop) (atoms : Symbol → Prop) (s : Sequent) : Prop :=
  s.toForm.Over operators atoms

section

variable {lang : Language} {style : Style} {kind : SymbolKind} {atoms : Symbol → Prop}

theorem writtenForms_eq (lang : Language) (style : Style) (ps : List Form) :
    lang.writtenForms style ps = ps.map (lang.writtenForm style) := by
  induction ps with
  | nil => rfl
  | cons p ps ih => simp [Language.writtenForms, ih]

variable (hlang : Legible lang style atoms) (hkind : ∀ s, atoms s → s.kind = kind)
  (hglued : ∀ f : Formula, f.Over (· ∈ lang.operators) atoms → ¬ f.Glued lang style)

include hlang hkind hglued

theorem scansTo_formula {f : Formula} {rest : List Char}
    (hf : f.Over (· ∈ lang.operators) atoms) (hrest : Stops rest) :
    ScansTo lang (lang.written style false f) rest fun ts => Derives kind .expression ts f :=
  ((rereads hlang hkind hf).expression hrest).imp fun _ hts => hts.derives (hglued f hf)

/-- Written premises are read as premises. -/
theorem scansTo_form {p : Form} {rest : List Char} (hp : p.Over (· ∈ lang.operators) atoms)
    (hrest : Stops rest) :
    ScansTo lang (lang.writtenForm style p) rest fun ts => DerivesPremise kind ts p := by
  induction hp generalizing rest with
  | formula hf => exact (scansTo_formula hlang hkind hglued hf hrest).imp fun _ => .formula
  | @sequent ps cs _ hne hcs ih =>
    have hinner := scansTo_around kind hlang.cuts_entailment hlang.kindOf_entailment
      (fun p hp _ => ih p hp) hne
      (fun f hf _ => scansTo_formula hlang hkind hglued (hcs f hf)) (stops_closing rest)
    -- the grammar takes the inner sequent only between brackets that match
    rw [← writtenForms_eq] at hinner
    refine ((scansTo_opening _).append (hinner.append (scansTo_closing rest))).imp ?_
    rintro _ ⟨_, _, rfl, ⟨t, rfl, ht⟩, ts, _, rfl, hts, t', rfl, ht'⟩
    exact .nested ht hts ht'

/-- A sequent is read back from its text. -/
theorem parseSequent_written {s : Sequent} (hs : s.Over (· ∈ lang.operators) atoms) :
    lang.parseSequent kind (String.ofList (lang.writtenSequent style s)) = .ok s := by
  rw [Language.parseSequent_eq_ok_iff]
  cases hs with
  | sequent hps hne hcs =>
    have hscan := scansTo_around kind hlang.cuts_entailment hlang.kindOf_entailment
      (fun p hp _ => scansTo_form hlang hkind hglued (hps p hp)) hne
      (fun f hf _ => scansTo_formula hlang hkind hglued (hcs f hf)) stops_nil
    rw [← writtenForms_eq] at hscan
    exact hscan.scan

end

end NaturalDeduction
