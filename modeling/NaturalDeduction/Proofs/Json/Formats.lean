import NaturalDeduction.Json.Derivation
import NaturalDeduction.Json.Language
import NaturalDeduction.Proofs.Json.Decoding
import NaturalDeduction.Proofs.Matching.Bindings

/-! # The formats of the data types

    Each type has an encoder and a decoder. The decoder recovers every value
    from what the encoder gives for it. For records this is said field by field
    in the order in which they are written, for formulas and nested sequents by
    induction on them.

    * **Numbers**: only numbers below a bound can be read, so a citation or a
      step has to be storable.
    * **Bindings**: the entries of a substitution are inserted one after the
      other, which gives the substitution back because no name is bound twice.
-/

namespace NaturalDeduction

open Json Json.Decoder

/-! ### Symbols and operators -/

theorem Symbol.recovers (s : Symbol) : Recovers Symbol.ofJson? s.toJson s := by
  have hkind : Recovers (word SymbolKind.word [.schema, .proposition])
      (.string s.kind.word) s.kind := by
    refine recovers_word ?_
    cases s.kind <;> rfl
  refine recovers_object rfl rfl ?_
  intro room
  exact (recovers_text s.name).bind (hkind.bind (within_zero room s).symm)

theorem Operator.recovers (op : Operator) : Recovers Operator.ofJson? op.toJson op := by
  have hfixity : Recovers (word Fixity.word [.prefixed, .postfixed, .infixed])
      (.string op.fixity.word) op.fixity := by
    refine recovers_word ?_
    cases op.fixity <;> rfl
  refine recovers_object rfl rfl ?_
  intro room
  exact (recovers_text op.name).bind (hfixity.bind (within_zero room op).symm)

/-! ### Formulas and sequents -/

theorem Formula.toJsonAll_eq (fs : List Formula) : Formula.toJsonAll fs = fs.map Formula.toJson := by
  induction fs with
  | nil => rfl
  | cons f fs ih => rw [Formula.toJsonAll, ih, List.map_cons]

theorem Formula.ofJsonAll?_eq (vs : List Json) :
    Formula.ofJsonAll? vs = vs.mapM Formula.ofJson? := by
  induction vs with
  | nil => rfl
  | cons v vs ih => rw [Formula.ofJsonAll?, ih, List.mapM_cons]

/-- Operands are read one by one, if they stand in an array. -/
theorem Formula.ofJson?_structured (v w : Json) :
    Formula.ofJson? (.object [("Structured", .array [v, w])]) =
      Operator.ofJson? v >>= fun op => list Formula.ofJson? w >>= fun fs => some (.app op fs) := by
  cases w with
  | array items =>
    show (Operator.ofJson? v >>= fun op => Formula.ofJsonAll? items >>= fun fs =>
      some (Formula.app op fs)) = _
    rw [Formula.ofJsonAll?_eq]
    rfl
  | _ => cases Operator.ofJson? v <;> rfl

theorem Formula.recovers_array {fs : List Formula}
    (h : ∀ f ∈ fs, Recovers Formula.ofJson? f.toJson f) :
    Recovers (list Formula.ofJson?) (.array (Formula.toJsonAll fs)) fs := by
  rw [Formula.toJsonAll_eq]
  exact recovers_list h

mutual
theorem Formula.recovers : (f : Formula) → Recovers Formula.ofJson? f.toJson f
  | .atom s => (Symbol.recovers s).wrapped rfl fun _ => rfl
  | .app op fs => by
    have hoperands := Formula.recovers_array (Formula.recoversAll fs)
    exact (Operator.recovers op).paired hoperands rfl rfl Formula.ofJson?_structured

theorem Formula.recoversAll : (fs : List Formula) → ∀ f ∈ fs, Recovers Formula.ofJson? f.toJson f
  | [], _, h => nomatch h
  | g :: fs, f, h => by
    rcases List.mem_cons.mp h with hfirst | hrest
    · rw [hfirst]
      exact Formula.recovers g
    · exact Formula.recoversAll fs f hrest
end

theorem Form.toJsonAll_eq (ps : List Form) : Form.toJsonAll ps = ps.map Form.toJson := by
  induction ps with
  | nil => rfl
  | cons p ps ih => rw [Form.toJsonAll, ih, List.map_cons]

theorem Form.ofJson?_formula (v : Json) :
    Form.ofJson? (.object [("Formula", v)]) = (Formula.ofJson? v).map .formula := by
  rw [Form.ofJson?]

/-- A nested sequent is read like a sequent. -/
theorem Form.ofJson?_sequent (v : Json) :
    Form.ofJson? (.object [("Sequent", v)]) = (Sequent.ofJson? v).map Sequent.toForm := by
  rw [Form.ofJson?, Sequent.ofJson?]
  split
  · next ps cs hsides =>
    -- that the premises are smaller is only needed to end the recursion
    have hpremises : ps.attach.mapM (Form.ofJson? ∘ Subtype.val) = ps.mapM Form.ofJson? := by
      rw [← List.mapM_map, List.attach_map_subtype_val]
    show (ps.attach.mapM (Form.ofJson? ∘ Subtype.val) >>= fun ps =>
      list Formula.ofJson? cs >>= fun cs => pure (Form.sequent ps cs)) = _
    rw [hpremises, hsides]
    dsimp only
    cases ps.mapM Form.ofJson? with
    | none => rfl
    | some premises => cases list Formula.ofJson? cs <;> rfl
  · next hsides =>
    rw [hsides]
    rfl

theorem Form.ofJson?_unread : Form.ofJson? .unread = none := by
  rw [Form.ofJson?]
  · intro v h
    cases h
  · intro v h
    cases h

theorem Form.listOfJson?_forms (v : Json) :
    Form.listOfJson? (.object [("forms", v)]) = list Form.ofJson? v := by
  cases v <;> rfl

theorem Sequent.ofJson?_sides (v w : Json) :
    Sequent.ofJson? (.object [("premises", v), ("conclusions", w)]) =
      Form.listOfJson? v >>= fun ps => list Formula.ofJson? w >>= fun cs => some ⟨ps, cs⟩ := by
  have hsides : Sequent.sidesOfJson? (.object [("premises", v), ("conclusions", w)]) =
      (Form.itemsOfJson? v).map (·, w) := rfl
  rw [Sequent.ofJson?, hsides, Form.listOfJson?]
  cases Form.itemsOfJson? v <;> rfl

/-- A sequent is recovered if its premises are. -/
theorem Sequent.recovers_of_premises (s : Sequent)
    (h : ∀ p ∈ s.premises, Recovers Form.ofJson? p.toJson p) :
    Recovers Sequent.ofJson? s.toJson s := by
  have hforms : Recovers (list Form.ofJson?) (.array (Form.toJsonAll s.premises)) s.premises := by
    rw [Form.toJsonAll_eq]
    exact recovers_list h
  have hpremises : Recovers Form.listOfJson? (Form.listToJson s.premises) s.premises :=
    hforms.wrapped (f := id) rfl fun v => (Form.listOfJson?_forms v).trans Option.map_id'.symm
  have hconclusions := Formula.recovers_array (Formula.recoversAll s.conclusions)
  refine recovers_object ?_ rfl ?_
  · show (_ && (_ && true)) = true
    rw [hpremises.plain, hconclusions.plain]
    rfl
  · intro room
    -- the fields are pruned one by one
    rw [pruneMembers, pruneMembers, pruneMembers, Sequent.ofJson?_sides]
    exact hpremises.bind (hconclusions.bind (within_zero room s).symm)

mutual
theorem Form.recovers : (p : Form) → Recovers Form.ofJson? p.toJson p
  | .formula f => (Formula.recovers f).wrapped Form.ofJson?_unread Form.ofJson?_formula
  | .sequent ps cs => by
    have hsequent := Sequent.recovers_of_premises ⟨ps, cs⟩ (Form.recoversAll ps)
    exact hsequent.wrapped Form.ofJson?_unread Form.ofJson?_sequent

theorem Form.recoversAll : (ps : List Form) → ∀ p ∈ ps, Recovers Form.ofJson? p.toJson p
  | [], _, h => nomatch h
  | q :: ps, p, h => by
    rcases List.mem_cons.mp h with hfirst | hrest
    · rw [hfirst]
      exact Form.recovers q
    · exact Form.recoversAll ps p hrest
end

theorem Sequent.recovers (s : Sequent) : Recovers Sequent.ofJson? s.toJson s :=
  s.recovers_of_premises (Form.recoversAll s.premises)

/-! ### Substitutions -/

/-- Bindings for different names that are not bound yet are added one after the other. -/
theorem Substitution.entries_foldl_insert {σ : Substitution} {bindings : List (String × Formula)}
    (h : ((σ.entries ++ bindings).map Prod.fst).Nodup) :
    (bindings.foldl (fun σ b => σ.insert b.1 b.2) σ).entries = σ.entries ++ bindings := by
  induction bindings generalizing σ with
  | nil => rw [List.foldl_nil, List.append_nil]
  | cons b rest ih =>
    obtain ⟨name, f⟩ := b
    have hsplit : σ.entries ++ (name, f) :: rest = (σ.entries ++ [(name, f)]) ++ rest := by
      rw [List.append_assoc, List.singleton_append]
    have hname : name ∉ σ.entries.map Prod.fst := by
      intro hmem
      rw [List.map_append, List.nodup_append] at h
      exact h.2.2 name hmem name List.mem_cons_self rfl
    have hentries := Substitution.entries_insert f hname
    rw [List.foldl_cons, hsplit, ← hentries]
    refine ih ?_
    rwa [hentries, ← hsplit]

theorem Substitution.ofList_entries (σ : Substitution) : Substitution.ofList σ.entries = σ := by
  have hentries : (Substitution.ofList σ.entries).entries = σ.entries :=
    Substitution.entries_foldl_insert σ.nodup
  cases hσ : Substitution.ofList σ.entries with
  | mk entries nodup =>
    obtain rfl : entries = σ.entries := by rw [← hentries, hσ]
    rfl

theorem Substitution.recovers (σ : Substitution) : Recovers Substitution.ofJson? σ.toJson σ := by
  have hformulas : ∀ e ∈ σ.entries, Recovers Formula.ofJson? e.2.toJson e.2 :=
    fun e _ => Formula.recovers e.2
  have hentries : Recovers Substitution.entriesOfJson?
      (.object (σ.entries.map fun e => (e.1, e.2.toJson))) σ := by
    refine recovers_object ?_ rfl ?_
    · rw [arePlainMembers_iff, List.forall_mem_map]
      exact fun e he => (hformulas e he).plain
    · intro room
      show ((pruneMembers (σ.entries.map fun e => (e.1, e.2.toJson)) room).mapM
        (fun m => (Formula.ofJson? m.2).map (m.1, ·)) >>= fun entries =>
          pure (Substitution.ofList entries)) = _
      rw [mapM_members hformulas room, bind_pure_comp]
      have hmap := map_within (memberNesting (σ.entries.map fun e => (e.1, e.2.toJson))) room
        σ.entries Substitution.ofList
      rwa [Substitution.ofList_entries] at hmap
  exact hentries.wrapped (f := id) rfl fun _ => Option.map_id'.symm

/-! ### Steps -/

/-- Can the numbers of a citation be read? -/
def Citation.Storable : Citation → Prop
  | .step n => n < numberBound
  | .subproof a b => a < numberBound ∧ b < numberBound

instance : DecidablePred Citation.Storable
  | .step n => inferInstanceAs (Decidable (n < numberBound))
  | .subproof a b => inferInstanceAs (Decidable (a < numberBound ∧ b < numberBound))

theorem Citation.recovers {c : Citation} (h : c.Storable) : Recovers Citation.ofJson? c.toJson c := by
  cases c with
  | step n => exact (recovers_natural h).wrapped rfl fun _ => rfl
  | subproof a b =>
    exact (recovers_natural h.1).paired (recovers_natural h.2) rfl rfl fun _ _ => rfl

/-- Can the numbers of a step be read? -/
structure Step.Storable (s : Step) : Prop where
  level : s.level < numberBound
  citations : ∀ c ∈ s.citations, c.Storable
  conclusionIndex : s.conclusionIndex < numberBound

instance (s : Step) : Decidable s.Storable :=
  have : Decidable (∀ c ∈ s.citations, c.Storable) := List.decidableBAll _ s.citations
  decidable_of_iff
    (s.level < numberBound ∧ (∀ c ∈ s.citations, c.Storable) ∧ s.conclusionIndex < numberBound)
    ⟨fun h => ⟨h.1, h.2.1, h.2.2⟩, fun h => ⟨h.level, h.citations, h.conclusionIndex⟩⟩

theorem Step.recovers {s : Step} (h : s.Storable) : Recovers Step.ofJson? s.toJson s := by
  have hlevel := recovers_natural h.level
  have hformula := Formula.recovers s.formula
  have hcitations : Recovers (list Citation.ofJson?) (.array (s.citations.map Citation.toJson))
      s.citations := recovers_list fun c hc => Citation.recovers (h.citations c hc)
  have hbindings := Substitution.recovers s.bindings
  have hindex := recovers_natural h.conclusionIndex
  refine recovers_object ?_ rfl ?_
  · show (_ && (_ && (_ && (true && (true && (_ && (_ && true))))))) = true
    rw [hlevel.plain, hformula.plain, hcitations.plain, hbindings.plain, hindex.plain]
    rfl
  · intro room
    exact hlevel.bind (hformula.bind (hcitations.bind ((recovers_text s.ruleName).bind
      ((recovers_text s.ruleAbbreviation).bind (hbindings.bind (hindex.bind
        (within_zero room s).symm))))))

/-! ### Lexicons -/

theorem Json.recovers_strings (texts : List String) :
    Recovers (list text) (.ofStrings texts) texts :=
  recovers_list fun s _ => recovers_text s

theorem Lexeme.recovers (l : Lexeme) : Recovers Lexeme.ofJson? l.toJson l := by
  have hcategory : Recovers (word Category.word Category.all) (.string l.category.word)
      l.category := by
    refine recovers_word ?_
    rcases l.category with fixity | _
    · cases fixity <;> rfl
    · rfl
  have hspellings := Json.recovers_strings l.spellings
  have hglosses := Json.recovers_strings l.glosses
  refine recovers_object ?_ rfl ?_
  · show (true && (_ && (true && (_ && true)))) = true
    rw [hspellings.plain, hglosses.plain]
    rfl
  · intro room
    exact (recovers_text l.name).bind (hspellings.bind (hcategory.bind (hglosses.bind
      (within_zero room l).symm)))

theorem Lexicon.recovers (l : Lexicon) : Recovers Lexicon.ofJson? l.toJson l := by
  have hlexemes : Recovers (list Lexeme.ofJson?) (.array (l.lexemes.map Lexeme.toJson)) l.lexemes :=
    recovers_list fun lexeme _ => Lexeme.recovers lexeme
  have hequivalence := Json.recovers_strings l.equivalence
  refine recovers_object ?_ rfl ?_
  · show (_ && (_ && true)) = true
    rw [hlexemes.plain, hequivalence.plain]
    rfl
  · intro room
    exact hlexemes.bind (hequivalence.bind (within_zero room l).symm)

/-! ### Configurations -/

/-- Can the numbers of a configuration be read? -/
structure Config.Storable (config : Config) : Prop where
  premiseLimit : config.premiseLimit < numberBound
  depthLimit : config.depthLimit < numberBound

theorem Config.recovers {config : Config} (h : config.Storable) :
    Recovers Config.ofJson? config.toJson config := by
  have hstyle : Recovers (word Style.word [.ascii, .unicode]) (.string config.style.word)
      config.style := by
    refine recovers_word ?_
    cases config.style <;> rfl
  have hpremises := recovers_natural h.premiseLimit
  have hdepth := recovers_natural h.depthLimit
  refine recovers_object ?_ rfl ?_
  · show (_ && (_ && (true && (true && true)))) = true
    rw [hpremises.plain, hdepth.plain]
    rfl
  · intro room
    exact hpremises.bind (hdepth.bind (hstyle.bind ((recovers_bool config.replaceInContext).bind
      (within_zero room config).symm)))

end NaturalDeduction
