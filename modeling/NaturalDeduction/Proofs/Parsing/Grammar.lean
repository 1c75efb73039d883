import NaturalDeduction.Parsing

/-! # The grammar of formulas and sequents

    What the readers are meant to read, said as relations between tokens and
    what they stand for:

        sequent    := [premise {COMMA premise}] ENTAILS expression {COMMA expression}
        premise    := expression | OPEN sequent CLOSE
        expression := term [INFIX term]
        term       := PREFIX term | chain
        chain      := primary {POSTFIX}
        primary    := OPEN expression CLOSE | SYMBOL

    A closing bracket has the shape of the one that it closes, and postfix
    operators apply from left to right. The relations say nothing of the order
    in which alternatives are tried, nor of the tokens that come after.

    * **Brackets**: what the grammar derives has matched brackets, so that the
      tokens before a closing bracket are known from all that follow an opening
      one (`inside`). An expression never holds the sign for entailment. Hence a
      bracket never opens both an expression and a sequent.
    * **Kinds of atoms**: what tokens stand for with atoms of one kind and of
      another differs in the kind of the atoms only.
-/

namespace NaturalDeduction

/-! ### Formulas and sequents with atoms of a kind -/

mutual
/-- The formula with atoms of a kind in the place of its atoms. -/
def Formula.retag (kind : SymbolKind) : Formula → Formula
  | .atom s => .atom { s with kind := kind }
  | .app op fs => .app op (Formula.retagAll kind fs)

/-- The formulas of a list with atoms of a kind. -/
def Formula.retagAll (kind : SymbolKind) : List Formula → List Formula
  | [] => []
  | f :: fs => f.retag kind :: Formula.retagAll kind fs
end

theorem Formula.retagAll_eq (kind : SymbolKind) (fs : List Formula) :
    Formula.retagAll kind fs = fs.map (Formula.retag kind) := by
  induction fs with
  | nil => rfl
  | cons f fs ih => simp [Formula.retagAll, ih]

mutual
/-- The form with atoms of a kind in the place of its atoms. -/
def Form.retag (kind : SymbolKind) : Form → Form
  | .formula f => .formula (f.retag kind)
  | .sequent ps cs => .sequent (Form.retagAll kind ps) (Formula.retagAll kind cs)

/-- The forms of a list with atoms of a kind. -/
def Form.retagAll (kind : SymbolKind) : List Form → List Form
  | [] => []
  | p :: ps => p.retag kind :: Form.retagAll kind ps
end

theorem Form.retagAll_eq (kind : SymbolKind) (ps : List Form) :
    Form.retagAll kind ps = ps.map (Form.retag kind) := by
  induction ps with
  | nil => rfl
  | cons p ps ih => simp [Form.retagAll, ih]

/-- The sequent with atoms of a kind in the place of its atoms. -/
def Sequent.retag (kind : SymbolKind) (s : Sequent) : Sequent :=
  ⟨Form.retagAll kind s.premises, Formula.retagAll kind s.conclusions⟩

namespace Grammar

/-! ### Formulas -/

/-- The parts of which formulas are made. -/
inductive Part where
  | expression
  | term
  | chain
  | primary

/-- The tokens are a part of a formula with atoms of a kind, and stand for a formula. -/
inductive Derives (kind : SymbolKind) : Part → List Token → Formula → Prop where
  | symbol {t : Token} : t.kind = .symbol → Derives kind .primary [t] (.atom ⟨t.lexeme, kind⟩)
  | group {shape : Bracket} {t t' : Token} {ts : List Token} {f : Formula} :
      t.kind = .opening shape → Derives kind .expression ts f → t'.kind = .closing shape →
        Derives kind .primary (t :: (ts ++ [t'])) f
  | bare {ts : List Token} {f : Formula} :
      Derives kind .primary ts f → Derives kind .chain ts f
  | postfixed {name : String} {t : Token} {ts : List Token} {f : Formula} :
      Derives kind .chain ts f → t.kind = .operator ⟨name, .postfixed⟩ →
        Derives kind .chain (ts ++ [t]) (.app ⟨name, .postfixed⟩ [f])
  | chain {ts : List Token} {f : Formula} :
      Derives kind .chain ts f → Derives kind .term ts f
  | prefixed {name : String} {t : Token} {ts : List Token} {f : Formula} :
      t.kind = .operator ⟨name, .prefixed⟩ → Derives kind .term ts f →
        Derives kind .term (t :: ts) (.app ⟨name, .prefixed⟩ [f])
  | term {ts : List Token} {f : Formula} :
      Derives kind .term ts f → Derives kind .expression ts f
  | infixed {name : String} {t : Token} {ts ts' : List Token} {f g : Formula} :
      Derives kind .term ts f → t.kind = .operator ⟨name, .infixed⟩ → Derives kind .term ts' g →
        Derives kind .expression (ts ++ t :: ts') (.app ⟨name, .infixed⟩ [f, g])

/-! ### Sequents -/

/-- One or more members with commas between them. -/
inductive Listed {α : Type} (member : List Token → α → Prop) : List Token → List α → Prop where
  | last {ts : List Token} {x : α} : member ts x → Listed member ts [x]
  | more {t : Token} {ts ts' : List Token} {x : α} {xs : List α} :
      member ts x → t.kind = .comma → Listed member ts' xs →
        Listed member (ts ++ t :: ts') (x :: xs)

/-- The tokens are a sequent, given what a premise is. -/
inductive SequentOf (kind : SymbolKind) (premise : List Token → Form → Prop) :
    List Token → Sequent → Prop where
  | unconditional {t : Token} {cs : List Token} {conclusions : List Formula} :
      t.kind = .entails → Listed (Derives kind .expression) cs conclusions →
        SequentOf kind premise (t :: cs) ⟨[], conclusions⟩
  | conditional {t : Token} {ps cs : List Token} {premises : List Form}
      {conclusions : List Formula} :
      Listed premise ps premises → t.kind = .entails →
        Listed (Derives kind .expression) cs conclusions →
          SequentOf kind premise (ps ++ t :: cs) ⟨premises, conclusions⟩

/-- The tokens are a premise: an expression, or a sequent in brackets. -/
inductive DerivesPremise (kind : SymbolKind) : List Token → Form → Prop where
  | formula {ts : List Token} {f : Formula} :
      Derives kind .expression ts f → DerivesPremise kind ts (.formula f)
  | nested {shape : Bracket} {t t' : Token} {ts : List Token} {s : Sequent} :
      t.kind = .opening shape → SequentOf kind (DerivesPremise kind) ts s →
        t'.kind = .closing shape → DerivesPremise kind (t :: (ts ++ [t'])) s.toForm

/-- The tokens are a sequent with atoms of a kind. -/
def DerivesSequent (kind : SymbolKind) : List Token → Sequent → Prop :=
  SequentOf kind (DerivesPremise kind)

variable {α β : Type} {kind kind' : SymbolKind} {part : Part} {ts : List Token} {f : Formula}

/-! ### Induction over premises -/

/-- Members may be replaced by others that stand for `g` of what they stood for. -/
theorem Listed.map {member : List Token → α → Prop} {member' : List Token → β → Prop} {g : α → β}
    {xs : List α} (h : Listed member ts xs)
    (hmember : ∀ us x, us.length ≤ ts.length → member us x → member' us (g x)) :
    Listed member' ts (xs.map g) := by
  induction h with
  | last hx => exact .last (hmember _ _ (Nat.le_refl _) hx)
  | more hx ht _ ih =>
    refine .more (hmember _ _ (by simp) hx) ht (ih ?_)
    intro us x hle hmem
    refine hmember us x ?_ hmem
    simp only [List.length_append, List.length_cons]
    omega

theorem Listed.imp {member member' : List Token → α → Prop} {xs : List α} (h : Listed member ts xs)
    (hmember : ∀ us x, us.length ≤ ts.length → member us x → member' us x) :
    Listed member' ts xs := by
  simpa using h.map (g := id) hmember

theorem Listed.length_le {member : List Token → α → Prop} {xs : List α} (h : Listed member ts xs) :
    xs.length ≤ ts.length + 1 := by
  induction h with
  | last _ => simp
  | more _ _ _ ih =>
    simp only [List.length_cons, List.length_append]
    omega

theorem SequentOf.imp {premise premise' : List Token → Form → Prop} {s : Sequent}
    (h : SequentOf kind premise ts s)
    (hpremise : ∀ us p, us.length ≤ ts.length → premise us p → premise' us p) :
    SequentOf kind premise' ts s := by
  cases h with
  | unconditional ht hcs => exact .unconditional ht hcs
  | conditional hps ht hcs =>
    refine .conditional (hps.imp ?_) ht hcs
    intro us p hle hp
    refine hpremise us p ?_ hp
    simp only [List.length_append]
    omega

/-- What holds of expressions, and of a sequent in brackets if it holds of the sequent's premises,
    holds of all premises. -/
@[elab_as_elim]
theorem DerivesPremise.induction
    {motive : (ts : List Token) → (p : Form) → DerivesPremise kind ts p → Prop}
    (formula : ∀ {ts f} (h : Derives kind .expression ts f), motive ts (.formula f) (.formula h))
    (nested : ∀ {shape} {t t' : Token} {ts s} (ht : t.kind = .opening shape)
      (hs : SequentOf kind (DerivesPremise kind) ts s) (ht' : t'.kind = .closing shape),
        SequentOf kind (fun us p => ∃ h : DerivesPremise kind us p, motive us p h) ts s →
          motive (t :: (ts ++ [t'])) s.toForm (.nested ht hs ht'))
    {p : Form} (h : DerivesPremise kind ts p) : motive ts p h := by
  -- the premises of a nested sequent have fewer tokens than the brackets around it
  induction hn : ts.length using Nat.strongRecOn generalizing ts p with
  | ind n ih =>
    cases h with
    | formula hf => exact formula hf
    | nested ht hs ht' =>
      refine nested ht hs ht' (hs.imp ?_)
      intro us p hle hp
      refine ⟨hp, ih us.length ?_ hp rfl⟩
      simp only [List.length_cons, List.length_append] at hn
      omega

/-! ### Brackets -/

/-- The tokens up to a closing bracket that none of them opens, where `depth` brackets were opened
    before. -/
def inside : (depth : Nat) → List Token → List Token
  | _, [] => []
  | depth, t :: ts =>
    match t.kind, depth with
    | .opening _, depth => t :: inside (depth + 1) ts
    | .closing _, 0 => []
    | .closing _, depth + 1 => t :: inside depth ts
    | _, depth => t :: inside depth ts

/-- Every bracket among the tokens has its partner among them. -/
def Matched (ts : List Token) : Prop :=
  ∀ depth rest, inside depth (ts ++ rest) = ts ++ inside depth rest

theorem Matched.append {us : List Token} (ht : Matched ts) (hu : Matched us) :
    Matched (ts ++ us) := by
  intro depth rest
  rw [List.append_assoc, ht, hu, List.append_assoc]

theorem Matched.singleton {t : Token} (hopening : ∀ shape, t.kind ≠ .opening shape)
    (hclosing : ∀ shape, t.kind ≠ .closing shape) : Matched [t] := by
  intro depth rest
  show inside depth (t :: rest) = t :: inside depth rest
  match h : t.kind with
  | .opening shape => exact absurd h (hopening shape)
  | .closing shape => exact absurd h (hclosing shape)
  | .eof | .unknown | .operator _ | .symbol | .objectName | .objectVariable | .comma | .entails
  | .punctuation => simp only [inside, h]

theorem Matched.group {shape shape' : Bracket} {t t' : Token} (ht : t.kind = .opening shape)
    (h : Matched ts) (ht' : t'.kind = .closing shape') : Matched (t :: (ts ++ [t'])) := by
  intro depth rest
  have hafter : inside (depth + 1) (t' :: rest) = t' :: inside depth rest := by
    simp only [inside, ht']
  calc inside depth (t :: (ts ++ [t']) ++ rest)
      = t :: inside (depth + 1) (ts ++ (t' :: rest)) := by simp [inside, ht]
    _ = t :: (ts ++ (t' :: inside depth rest)) := by rw [h, hafter]
    _ = t :: (ts ++ [t']) ++ inside depth rest := by simp

/-- A closing bracket ends matched tokens. -/
theorem Matched.inside_eq {shape : Bracket} {t : Token} (h : Matched ts)
    (ht : t.kind = .closing shape) (rest : List Token) : inside 0 (ts ++ t :: rest) = ts := by
  rw [h]
  simp [inside, ht]

theorem Derives.matched (h : Derives kind part ts f) : Matched ts := by
  induction h with
  | symbol ht => exact .singleton (by simp [ht]) (by simp [ht])
  | group ht _ ht' ih => exact ih.group ht ht'
  | bare _ ih => exact ih
  | postfixed _ ht ih => exact ih.append (.singleton (by simp [ht]) (by simp [ht]))
  | chain _ ih => exact ih
  | prefixed ht _ ih => exact Matched.append (.singleton (by simp [ht]) (by simp [ht])) ih
  | term _ ih => exact ih
  | infixed _ ht _ ih ih' =>
    exact ih.append (Matched.append (.singleton (by simp [ht]) (by simp [ht])) ih')

theorem Listed.matched {member : List Token → α → Prop} {xs : List α} (h : Listed member ts xs)
    (hmember : ∀ us x, member us x → Matched us) : Matched ts := by
  induction h with
  | last hx => exact hmember _ _ hx
  | more hx ht _ ih =>
    exact (hmember _ _ hx).append (Matched.append (.singleton (by simp [ht]) (by simp [ht])) ih)

theorem SequentOf.matched {premise : List Token → Form → Prop} {s : Sequent}
    (h : SequentOf kind premise ts s) (hpremise : ∀ us p, premise us p → Matched us) :
    Matched ts := by
  cases h with
  | unconditional ht hcs =>
    exact Matched.append (.singleton (by simp [ht]) (by simp [ht]))
      (hcs.matched fun _ _ hc => hc.matched)
  | conditional hps ht hcs =>
    exact (hps.matched hpremise).append (Matched.append (.singleton (by simp [ht]) (by simp [ht]))
      (hcs.matched fun _ _ hc => hc.matched))

theorem DerivesPremise.matched {p : Form} (h : DerivesPremise kind ts p) : Matched ts := by
  induction h using DerivesPremise.induction with
  | formula hf => exact hf.matched
  | nested ht _ ht' ih =>
    refine Matched.group ht (ih.matched ?_) ht'
    intro us p hp
    exact hp.2

/-! ### Expressions beside sequents -/

theorem Derives.ne_nil (h : Derives kind part ts f) : ts ≠ [] := by
  induction h with
  | bare _ ih => exact ih
  | chain _ ih => exact ih
  | term _ ih => exact ih
  | _ => simp

/-- Formulas are made of symbols, operators and brackets only. -/
theorem Derives.kind_ne {k : TokenKind} (hsymbol : k ≠ .symbol) (hoperator : ∀ op, k ≠ .operator op)
    (hopening : ∀ shape, k ≠ .opening shape) (hclosing : ∀ shape, k ≠ .closing shape)
    (h : Derives kind part ts f) : ∀ t ∈ ts, t.kind ≠ k := by
  induction h with
  | symbol ht => simpa [ht] using hsymbol.symm
  | group ht _ ht' ih =>
    simpa [ht, ht', or_imp, forall_and] using ⟨(hopening _).symm, ih, (hclosing _).symm⟩
  | bare _ ih => exact ih
  | postfixed _ ht ih => simpa [ht, or_imp, forall_and] using ⟨ih, (hoperator _).symm⟩
  | chain _ ih => exact ih
  | prefixed ht _ ih => simpa [ht] using ⟨(hoperator _).symm, ih⟩
  | term _ ih => exact ih
  | infixed _ ht _ ih ih' =>
    simpa [ht, or_imp, forall_and] using ⟨ih, (hoperator _).symm, ih'⟩

theorem Derives.kind_ne_entails (h : Derives kind part ts f) : ∀ t ∈ ts, t.kind ≠ .entails :=
  h.kind_ne (by simp) (by simp) (by simp) (by simp)

theorem Derives.kind_ne_eof (h : Derives kind part ts f) : ∀ t ∈ ts, t.kind ≠ .eof :=
  h.kind_ne (by simp) (by simp) (by simp) (by simp)

theorem SequentOf.exists_entails {premise : List Token → Form → Prop} {s : Sequent}
    (h : SequentOf kind premise ts s) : ∃ t ∈ ts, t.kind = .entails := by
  cases h with
  | unconditional ht _ => exact ⟨_, by simp, ht⟩
  | conditional _ ht _ => exact ⟨_, by simp, ht⟩

/-- Part of a formula that starts with a bracket has an expression in the bracket. -/
theorem Derives.exists_group {shape : Bracket} {t : Token} (ht : t.kind = .opening shape)
    (h : Derives kind part (t :: ts) f) :
    ∃ us t' more g, ts = us ++ t' :: more ∧ Derives kind .expression us g ∧
      t'.kind = .closing shape := by
  generalize hall : t :: ts = all at h
  induction h generalizing ts with
  | symbol ht₁ =>
    cases hall
    simp [ht] at ht₁
  | group ht₁ hinner ht' _ =>
    cases hall
    rw [ht] at ht₁
    cases ht₁
    exact ⟨_, _, [], _, rfl, hinner, ht'⟩
  | bare _ ih => exact ih hall
  | @postfixed _ t₂ _ _ hfirst _ ih =>
    -- the bracket is the first token of what the operator applies to
    obtain ⟨t₁, us, rfl⟩ := List.exists_cons_of_ne_nil hfirst.ne_nil
    obtain ⟨rfl, rfl⟩ := List.cons.inj hall
    obtain ⟨vs, t', more, g, rfl, hg, ht'⟩ := ih rfl
    exact ⟨vs, t', more ++ [t₂], g, by simp, hg, ht'⟩
  | chain _ ih => exact ih hall
  | prefixed ht₁ _ _ =>
    cases hall
    simp [ht] at ht₁
  | term _ ih => exact ih hall
  | @infixed _ t₂ _ us' _ _ hfirst _ _ ih _ =>
    obtain ⟨t₁, us, rfl⟩ := List.exists_cons_of_ne_nil hfirst.ne_nil
    obtain ⟨rfl, rfl⟩ := List.cons.inj hall
    obtain ⟨vs, t', more, g, rfl, hg, ht'⟩ := ih rfl
    exact ⟨vs, t', more ++ t₂ :: us', g, by simp, hg, ht'⟩

/-- Where a bracket opens a sequent, no part of a formula starts. -/
theorem Derives.not_of_sequentOf {shape : Bracket} {t t' : Token} {us rest rest' : List Token}
    {s : Sequent} (h : Derives kind part us f) (ht : t.kind = .opening shape)
    (hs : SequentOf kind (DerivesPremise kind) ts s) (ht' : t'.kind = .closing shape) :
    us ++ rest' ≠ t :: (ts ++ t' :: rest) := by
  intro heq
  obtain ⟨t₁, us, rfl⟩ := List.exists_cons_of_ne_nil h.ne_nil
  obtain ⟨rfl, htail⟩ := List.cons.inj heq
  obtain ⟨vs, t₂, more, g, rfl, hg, ht₂⟩ := h.exists_group ht
  -- the tokens in the bracket are those of an expression and those of a sequent
  have hsame : vs = ts := by
    rw [← hg.matched.inside_eq ht₂ (more ++ rest'), ← (hs.matched fun _ _ hp =>
      hp.matched).inside_eq ht' rest]
    simpa using congrArg (inside 0) htail
  obtain ⟨e, he, hentails⟩ := hs.exists_entails
  exact hg.kind_ne_entails e (hsame ▸ he) hentails

/-! ### Kinds of atoms -/

theorem Derives.retag (kind' : SymbolKind) (h : Derives kind part ts f) :
    Derives kind' part ts (f.retag kind') := by
  induction h with
  | symbol ht => exact .symbol ht
  | group ht _ ht' ih => exact .group ht ih ht'
  | bare _ ih => exact .bare ih
  | postfixed _ ht ih => exact .postfixed ih ht
  | chain _ ih => exact .chain ih
  | prefixed ht _ ih => exact .prefixed ht ih
  | term _ ih => exact .term ih
  | infixed _ ht _ ih ih' => exact .infixed ih ht ih'

theorem SequentOf.retag (kind' : SymbolKind) {premise premise' : List Token → Form → Prop}
    {s : Sequent} (h : SequentOf kind premise ts s)
    (hpremise : ∀ us p, premise us p → premise' us (p.retag kind')) :
    SequentOf kind' premise' ts (s.retag kind') := by
  cases h with
  | unconditional ht hcs =>
    have hcs' := hcs.map fun _ _ _ hc => Derives.retag kind' hc
    rw [← Formula.retagAll_eq] at hcs'
    exact .unconditional ht hcs'
  | conditional hps ht hcs =>
    have hps' := hps.map fun us p _ hp => hpremise us p hp
    have hcs' := hcs.map fun _ _ _ hc => Derives.retag kind' hc
    rw [← Formula.retagAll_eq] at hcs'
    rw [← Form.retagAll_eq] at hps'
    exact .conditional hps' ht hcs'

theorem DerivesPremise.retag (kind' : SymbolKind) {p : Form} (h : DerivesPremise kind ts p) :
    DerivesPremise kind' ts (p.retag kind') := by
  induction h using DerivesPremise.induction with
  | formula hf => exact .formula (hf.retag kind')
  | nested ht _ ht' ih =>
    have hs := ih.retag kind' fun _ _ hp => hp.2
    exact .nested ht hs ht'

theorem DerivesSequent.retag (kind' : SymbolKind) {s : Sequent} (h : DerivesSequent kind ts s) :
    DerivesSequent kind' ts (s.retag kind') :=
  SequentOf.retag kind' h fun _ _ hp => hp.retag kind'

end Grammar

end NaturalDeduction
