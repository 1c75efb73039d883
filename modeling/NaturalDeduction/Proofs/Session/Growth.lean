import NaturalDeduction.Proofs.Calculus
import NaturalDeduction.Proofs.Derivation.Undo
import NaturalDeduction.Session.Command

/-! # How sessions grow derivations

    A session changes its derivation only by the operations on derivations, and
    it adds steps in four ways only: a premise of the goal when the goal is
    started, an assumption right after a scope was opened for it, the outcome
    of an inference, and the outcome of a replacement. Whatever the host
    answers, and whatever fails or is taken back in between, the derivation of
    a session has grown in these ways (`Proper.afterAll`).

    What holds of all steps of a session is then proved for these four ways.
-/

namespace NaturalDeduction

/-! ### Ways to add a step -/

/-- The step states `f` by a rule whose conclusion is an atom. -/
def Stated (c : Calculus) (rule : Rule) (f : Formula) (step : Step) : Prop :=
  ∃ symbol inference conclusion rest, rule.sequent.conclusions = [.atom symbol] ∧
    c.infer rule.name [] (Substitution.empty.insert symbol.name f) = .ok inference ∧
    inference.conclusions = conclusion :: rest ∧
    step = { formula := conclusion, ruleName := rule.name, ruleAbbreviation := rule.abbreviation,
             bindings := inference.bindings }

/-- The ways in which a session with a goal adds a step to a derivation. The keys of `permitted` are
    the only ones by which it infers. -/
inductive Introduced (logic : Logic) (config : Config) (permitted : String → Prop)
    (goal : Option Sequent) (d : Derivation) : Step → Prop where
  | premise {sequent : Sequent} {f : Formula} {step : Step} :
      goal = some sequent → .formula f ∈ sequent.premises → d.scopes.outer = [] →
        Stated logic.calculus logic.calculus.assertionRule f step →
          Introduced logic config permitted goal d step
  | assumption {f : Formula} {step : Step} :
      d.scopes.current = [] → d.scopes.outer ≠ [] →
        Stated logic.calculus logic.calculus.subproofRule f step →
          Introduced logic config permitted goal d step
  | inferred {key : String} {rule : Rule} {citations : List Citation} {premises : List Form}
      {extra : Substitution} {inference : Inference} {index : Nat} {conclusion : Formula} :
      permitted key → logic.calculus.rule key = .ok rule → d.premises citations = .ok premises →
        logic.calculus.infer key premises extra = .ok inference →
          inference.conclusions[index]? = some conclusion →
            Introduced logic config permitted goal d
              { formula := conclusion, citations := citations, ruleName := rule.name,
                ruleAbbreviation := rule.abbreviation, bindings := inference.bindings,
                conclusionIndex := index }
  | replaced {key : String} {rule : Rule} {citations : List Citation} {premises : List Form}
      {path : Path} {replacement : Replacement} :
      logic.calculus.rule key = .ok rule → d.premises citations = .ok premises →
        logic.calculus.replace key premises path = .ok replacement →
          Introduced logic config permitted goal d
            { formula := if config.replaceInContext then replacement.inContext
                else replacement.formula,
              citations := citations, ruleName := rule.name,
              ruleAbbreviation := rule.abbreviation, bindings := replacement.bindings }

/-! ### Runs of work with questions -/

namespace Consultation

variable {α β : Type} {advisor : Advisor}

theorem run_bind_eq_ok {x : Consultation α} {f : α → Consultation β} {b : β} :
    (x >>= f).run advisor = .ok b ↔ ∃ a, x.run advisor = .ok a ∧ (f a).run advisor = .ok b := by
  rw [run_bind]
  cases x.run advisor with
  | error e => simp
  | ok a => simp

theorem run_ofExcept_eq_ok {ε : Type} {toError : ε → Error} {x : Except ε α} {a : α} :
    (ofExcept toError x).run advisor = .ok a ↔ x = .ok a := by
  rw [run_ofExcept, Except.mapError_eq_ok]

end Consultation

/-- The command infers by permitted keys only. -/
def Command.Within (permitted : String → Prop) : Command → Prop
  | .infer key _ => permitted key
  | _ => True

namespace Session

variable {s s' : Session} {advisor : Advisor} {number : Nat}

/-! ### Single operations -/

theorem assertionStep_eq_ok {rule : Rule} {f : Formula} {step : Step}
    (h : s.assertionStep rule f = .ok step) : Stated s.logic.calculus rule f step := by
  unfold assertionStep at h
  split at h
  · next symbol hconclusions =>
    split at h
    · cases h
    · next inference hinfer =>
      split at h
      · cases h
      · next conclusion rest hlist =>
        cases h
        exact ⟨symbol, inference, conclusion, rest, hconclusions, hinfer, hlist, rfl⟩
  · cases h

theorem addStep_eq_ok {step : Step} (h : s.addStep step = .ok (number, s')) :
    ∃ d', s.derivation.addStep step = .ok (number, d') ∧ s' = s.withDerivation d' := by
  unfold addStep at h
  obtain ⟨⟨n, d'⟩, hadd, h⟩ := Except.bind_eq_ok.mp h
  rw [Except.mapError_eq_ok] at hadd
  cases h
  exact ⟨d', hadd, rfl⟩

/-- An inference gives the conclusion that was chosen. -/
theorem inferredStep_eq_ok {key : String} {citations : List Citation} {permitted : String → Prop}
    {step : Step} (hkey : permitted key)
    (h : (s.inferredStep key citations).run advisor = .ok step) :
    Introduced s.logic s.config permitted s.goal s.derivation step := by
  unfold inferredStep at h
  obtain ⟨rule, hrule, h⟩ := Consultation.run_bind_eq_ok.mp h
  rw [Consultation.run_ofExcept_eq_ok] at hrule
  obtain ⟨premises, hpremises, h⟩ := Consultation.run_bind_eq_ok.mp h
  rw [Consultation.run_ofExcept_eq_ok] at hpremises
  split at h
  · cases h
  · -- the bindings and the choice may come from the host or be fixed: the rest is the same
    split at h
    all_goals
      obtain ⟨extra, _, h⟩ := Consultation.run_bind_eq_ok.mp h
      obtain ⟨inference, hinfer, h⟩ := Consultation.run_bind_eq_ok.mp h
      rw [Consultation.run_ofExcept_eq_ok] at hinfer
      split at h
      all_goals
        obtain ⟨index, _, h⟩ := Consultation.run_bind_eq_ok.mp h
        dsimp only at h
        split at h
        · cases h
        · next conclusion hconclusion =>
          cases h
          exact .inferred hkey hrule hpremises hinfer hconclusion

/-- A replacement gives what the equivalence makes of the premise. -/
theorem replacedStep_eq_ok {key : String} {citations : List Citation} {step : Step}
    (permitted : String → Prop) (h : (s.replacedStep key citations).run advisor = .ok step) :
    Introduced s.logic s.config permitted s.goal s.derivation step := by
  unfold replacedStep at h
  obtain ⟨rule, hrule, h⟩ := Consultation.run_bind_eq_ok.mp h
  rw [Consultation.run_ofExcept_eq_ok] at hrule
  split at h
  · cases h
  · obtain ⟨premises, hpremises, h⟩ := Consultation.run_bind_eq_ok.mp h
    rw [Consultation.run_ofExcept_eq_ok] at hpremises
    split at h
    · cases h
    · obtain ⟨path, _, h⟩ := Consultation.run_bind_eq_ok.mp h
      obtain ⟨replacement, hreplace, h⟩ := Consultation.run_bind_eq_ok.mp h
      rw [Consultation.run_ofExcept_eq_ok] at hreplace
      cases h
      exact .replaced hrule hpremises hreplace
    · cases h

theorem infer_eq_ok {key : String} {citations : List Citation} {permitted : String → Prop}
    (hkey : permitted key) (h : (s.infer key citations).run advisor = .ok (number, s')) :
    ∃ step d', Introduced s.logic s.config permitted s.goal s.derivation step ∧
      s.derivation.addStep step = .ok (number, d') ∧ s' = s.withDerivation d' := by
  obtain ⟨step, hstep, h⟩ := Consultation.run_bind_eq_ok.mp h
  obtain ⟨d', hadd, hs'⟩ := addStep_eq_ok (Consultation.run_ofExcept_eq_ok.mp h)
  exact ⟨step, d', inferredStep_eq_ok hkey hstep, hadd, hs'⟩

theorem replace_eq_ok {key : String} {citations : List Citation} (permitted : String → Prop)
    (h : (s.replace key citations).run advisor = .ok (number, s')) :
    ∃ step d', Introduced s.logic s.config permitted s.goal s.derivation step ∧
      s.derivation.addStep step = .ok (number, d') ∧ s' = s.withDerivation d' := by
  obtain ⟨step, hstep, h⟩ := Consultation.run_bind_eq_ok.mp h
  obtain ⟨d', hadd, hs'⟩ := addStep_eq_ok (Consultation.run_ofExcept_eq_ok.mp h)
  exact ⟨step, d', replacedStep_eq_ok permitted hstep, hadd, hs'⟩

/-! ### Sessions whose derivation has grown -/

/-- A session of a logic whose derivation has grown in the ways of sessions. -/
structure Proper (logic : Logic) (config : Config) (permitted : String → Prop) (s : Session) :
    Prop where
  logic_eq : s.logic = logic
  config_eq : s.config = config
  grown : ∃ past, Derivation.Grown (Introduced logic config permitted s.goal) s.derivation past

variable {logic : Logic} {config : Config} {permitted : String → Prop}

theorem Proper.new (logic : Logic) (config : Config) (permitted : String → Prop) :
    Proper logic config permitted (Session.new logic config) :=
  ⟨rfl, rfl, [], .empty config.depthLimit⟩

/-- Stating premises outside all sub-proofs is growth. -/
theorem statePremises_grown {sequent : Sequent} {forms : List Form} {d d' : Derivation}
    {past : List Derivation} (hlogic : s.logic = logic)
    (hforms : ∀ form ∈ forms, form ∈ sequent.premises) (htop : d.scopes.outer = [])
    (hd : Derivation.Grown (Introduced logic config permitted (some sequent)) d past)
    (h : s.statePremises d forms = .ok d') :
    ∃ past', Derivation.Grown (Introduced logic config permitted (some sequent)) d' past' := by
  induction forms generalizing d past with
  | nil =>
    cases h
    exact ⟨past, hd⟩
  | cons form forms ih =>
    cases form with
    | sequent ps cs => cases h
    | formula f =>
      obtain ⟨step, hstep, h⟩ := Except.bind_eq_ok.mp h
      obtain ⟨⟨n, d₁⟩, hadd, h⟩ := Except.bind_eq_ok.mp h
      rw [Except.mapError_eq_ok] at hadd
      have hstated := assertionStep_eq_ok hstep
      rw [hlogic] at hstated
      have hintro : Introduced logic config permitted (some sequent) d step :=
        .premise rfl (hforms _ List.mem_cons_self) htop hstated
      have htop₁ : d₁.scopes.outer = [] := by
        obtain ⟨_, _, _, rfl⟩ := Derivation.addStep_eq_ok_iff.mp hadd
        exact htop
      exact ih (fun form hform => hforms form (List.mem_cons_of_mem _ hform)) htop₁
        (.addStep hd hintro hadd) h

theorem Proper.start (hs : Proper logic config permitted s) {goal : Sequent}
    (h : s.start goal = .ok s') : Proper logic config permitted s' := by
  obtain ⟨d, hd, h⟩ := Except.bind_eq_ok.mp h
  cases h
  exact ⟨hs.logic_eq, hs.config_eq,
    statePremises_grown hs.logic_eq (fun _ hform => hform) rfl (.empty _) hd⟩

theorem Proper.addStep (hs : Proper logic config permitted s) {step : Step} {d' : Derivation}
    (hintro : Introduced s.logic s.config permitted s.goal s.derivation step)
    (hadd : s.derivation.addStep step = .ok (number, d')) :
    Proper logic config permitted (s.withDerivation d') := by
  obtain ⟨past, hgrown⟩ := hs.grown
  rw [hs.logic_eq, hs.config_eq] at hintro
  exact ⟨hs.logic_eq, hs.config_eq, _, .addStep hgrown hintro hadd⟩

theorem Proper.openScope (hs : Proper logic config permitted s) (h : s.openScope = .ok s') :
    Proper logic config permitted s' := by
  obtain ⟨d, hd, h⟩ := Except.bind_eq_ok.mp h
  rw [Except.mapError_eq_ok] at hd
  cases h
  obtain ⟨past, hgrown⟩ := hs.grown
  exact ⟨hs.logic_eq, hs.config_eq, past, .openScope hgrown hd⟩

theorem Proper.closeScope (hs : Proper logic config permitted s) (h : s.closeScope = .ok s') :
    Proper logic config permitted s' := by
  obtain ⟨d, hd, h⟩ := Except.bind_eq_ok.mp h
  rw [Except.mapError_eq_ok] at hd
  cases h
  obtain ⟨past, hgrown⟩ := hs.grown
  exact ⟨hs.logic_eq, hs.config_eq, past, .closeScope hgrown hd⟩

theorem Proper.assume (hs : Proper logic config permitted s) {f : Formula}
    (h : s.assume f = .ok (number, s')) : Proper logic config permitted s' := by
  obtain ⟨step, hstep, h⟩ := Except.bind_eq_ok.mp h
  obtain ⟨d, hopen, h⟩ := Except.bind_eq_ok.mp h
  obtain ⟨⟨n, d'⟩, hadd, h⟩ := Except.bind_eq_ok.mp h
  rw [Except.mapError_eq_ok] at hopen hadd
  cases h
  have hopened : Proper logic config permitted (s.withDerivation d) := by
    obtain ⟨past, hgrown⟩ := hs.grown
    exact ⟨hs.logic_eq, hs.config_eq, past, .openScope hgrown hopen⟩
  -- the scope has just been opened, so that the assumption comes first in it
  obtain ⟨_, _, rfl⟩ := Derivation.openScope_eq_ok_iff.mp hopen
  have hintro : Introduced s.logic s.config permitted s.goal s.derivation.opened step :=
    .assumption rfl (by simp [Derivation.opened, Scopes.push]) (assertionStep_eq_ok hstep)
  exact hopened.addStep hintro hadd

theorem Proper.deleteStep (hs : Proper logic config permitted s) {step : Step}
    (h : s.deleteStep = .ok (step, s')) : Proper logic config permitted s' := by
  obtain ⟨⟨removed, d⟩, hd, h⟩ := Except.bind_eq_ok.mp h
  rw [Except.mapError_eq_ok] at hd
  cases h
  obtain ⟨past, hgrown⟩ := hs.grown
  exact ⟨hs.logic_eq, hs.config_eq, _, hgrown.deleteStep hd⟩

/-! ### Runs -/

/-- The session after a list of commands, each with an advisor of its own. -/
def afterAll (s : Session) (script : List (Command × Advisor)) : Session :=
  script.foldl (fun s entry => s.after entry.1 entry.2) s

/-- A command that succeeds is growth. -/
theorem Proper.perform (hs : Proper logic config permitted s) {command : Command} {reply : Reply}
    (hc : command.Within permitted) (h : (s.perform command).run advisor = .ok (reply, s')) :
    Proper logic config permitted s' := by
  -- each command stands for one of the operations above
  cases command with
  | start goal =>
    obtain ⟨s₁, hstart, h⟩ := Except.bind_eq_ok.mp (Consultation.run_ofExcept_eq_ok.mp h)
    cases h
    exact hs.start hstart
  | startText source =>
    obtain ⟨s₁, htext, h⟩ := Except.bind_eq_ok.mp (Consultation.run_ofExcept_eq_ok.mp h)
    obtain ⟨goal, _, hstart⟩ := Except.bind_eq_ok.mp htext
    cases h
    exact hs.start hstart
  | infer key citations =>
    obtain ⟨⟨n, s₁⟩, hinfer, h⟩ := Consultation.run_bind_eq_ok.mp h
    cases h
    obtain ⟨step, d', hintro, hadd, rfl⟩ := infer_eq_ok hc hinfer
    exact hs.addStep hintro hadd
  | replace key citations =>
    obtain ⟨⟨n, s₁⟩, hreplace, h⟩ := Consultation.run_bind_eq_ok.mp h
    cases h
    obtain ⟨step, d', hintro, hadd, rfl⟩ := replace_eq_ok permitted hreplace
    exact hs.addStep hintro hadd
  | openScope =>
    obtain ⟨s₁, hopen, h⟩ := Except.bind_eq_ok.mp (Consultation.run_ofExcept_eq_ok.mp h)
    cases h
    exact hs.openScope hopen
  | assume assumption =>
    obtain ⟨⟨n, s₁⟩, hassume, h⟩ :=
      Except.bind_eq_ok.mp (Consultation.run_ofExcept_eq_ok.mp h)
    cases h
    exact hs.assume hassume
  | closeScope =>
    obtain ⟨s₁, hclose, h⟩ := Except.bind_eq_ok.mp (Consultation.run_ofExcept_eq_ok.mp h)
    cases h
    exact hs.closeScope hclose
  | deleteStep =>
    obtain ⟨⟨step, s₁⟩, hdelete, h⟩ :=
      Except.bind_eq_ok.mp (Consultation.run_ofExcept_eq_ok.mp h)
    cases h
    exact hs.deleteStep hdelete

theorem Proper.after (hs : Proper logic config permitted s) {command : Command}
    (hc : command.Within permitted) (advisor : Advisor) :
    Proper logic config permitted (s.after command advisor) := by
  unfold Session.after
  split
  · next reply s' h => exact hs.perform hc h
  · -- a command that fails changes nothing
    exact hs

/-- Whatever is done in a session and whatever the host answers, the derivation has grown in the
    ways of sessions. -/
theorem Proper.afterAll (hs : Proper logic config permitted s)
    {script : List (Command × Advisor)} (hscript : ∀ entry ∈ script, entry.1.Within permitted) :
    Proper logic config permitted (s.afterAll script) := by
  induction script generalizing s with
  | nil => exact hs
  | cons entry script ih =>
    have hfirst := hs.after (hscript entry List.mem_cons_self) entry.2
    exact ih hfirst fun e he => hscript e (List.mem_cons_of_mem entry he)

end Session

end NaturalDeduction
