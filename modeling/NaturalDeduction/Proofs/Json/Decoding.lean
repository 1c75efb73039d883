import NaturalDeduction.Json.Decoder

/-! # Values that are read back

    A decoder recovers something from a value if it reads exactly that from the
    value, and nothing if a part of the value is left unread because its
    brackets are nested too deep:

    * **Room**: results that need room are put together by the maximum of what
      they need (`within_bind`), just as the brackets of a value are nested as
      deep as those of its deepest part, and one more.
    * **Parts**: a record, an alternative or an array is recovered if its parts
      are, so that a decoder is treated like the encoder that it belongs to.
-/

namespace NaturalDeduction

namespace Json

/-! ### How deep brackets are nested -/

mutual
/-- How deep the brackets of a value are nested. -/
def nesting : Json → Nat
  | .array items => itemNesting items + 1
  | .object members => memberNesting members + 1
  | _ => 0

/-- How deep brackets are nested in the items of an array. -/
def itemNesting : List Json → Nat
  | [] => 0
  | v :: vs => max v.nesting (itemNesting vs)

/-- How deep brackets are nested in the members of an object. -/
def memberNesting : List (String × Json) → Nat
  | [] => 0
  | (_, v) :: ms => max v.nesting (memberNesting ms)
end

mutual
/-- Are all numbers of the value natural ones below the bound, and is no part of it left unread? -/
def isPlain : Json → Bool
  | .natural n => n < numberBound
  | .number _ => false
  | .unread => false
  | .array items => arePlainItems items
  | .object members => arePlainMembers members
  | _ => true

/-- Are all items of an array plain? -/
def arePlainItems : List Json → Bool
  | [] => true
  | v :: vs => v.isPlain && arePlainItems vs

/-- Are all members of an object plain? -/
def arePlainMembers : List (String × Json) → Bool
  | [] => true
  | (_, v) :: ms => v.isPlain && arePlainMembers ms
end

theorem arePlainItems_iff {items : List Json} :
    arePlainItems items = true ↔ ∀ v ∈ items, v.isPlain = true := by
  induction items with
  | nil => simp [arePlainItems]
  | cons v vs ih => rw [arePlainItems, Bool.and_eq_true, ih, List.forall_mem_cons]

theorem arePlainMembers_iff {members : List (String × Json)} :
    arePlainMembers members = true ↔ ∀ m ∈ members, m.2.isPlain = true := by
  induction members with
  | nil => simp [arePlainMembers]
  | cons m ms ih => rw [arePlainMembers, Bool.and_eq_true, ih, List.forall_mem_cons]

/-! ### What is left unread -/

mutual
/-- Nothing is left unread if there is room for all brackets. -/
theorem prune_of_nesting_le : (v : Json) → {room : Nat} → v.nesting ≤ room → v.prune room = v
  | .array _, 0, h => absurd h (Nat.not_succ_le_zero _)
  | .array items, _ + 1, h =>
    congrArg array (pruneItems_of_nesting_le items (Nat.le_of_succ_le_succ h))
  | .object _, 0, h => absurd h (Nat.not_succ_le_zero _)
  | .object members, _ + 1, h =>
    congrArg object (pruneMembers_of_nesting_le members (Nat.le_of_succ_le_succ h))
  | .null, _, _ => rfl
  | .bool _, _, _ => rfl
  | .natural _, _, _ => rfl
  | .number _, _, _ => rfl
  | .string _, _, _ => rfl
  | .unread, _, _ => rfl

theorem pruneItems_of_nesting_le : (items : List Json) → {room : Nat} →
    itemNesting items ≤ room → pruneItems items room = items
  | [], _, _ => rfl
  | v :: vs, room, h => by
    obtain ⟨hv, hvs⟩ := Nat.max_le.mp h
    rw [pruneItems, prune_of_nesting_le v hv, pruneItems_of_nesting_le vs hvs]

theorem pruneMembers_of_nesting_le : (members : List (String × Json)) → {room : Nat} →
    memberNesting members ≤ room → pruneMembers members room = members
  | [], _, _ => rfl
  | (name, v) :: ms, room, h => by
    obtain ⟨hv, hms⟩ := Nat.max_le.mp h
    rw [pruneMembers, prune_of_nesting_le v hv, pruneMembers_of_nesting_le ms hms]
end

end Json

/-! ### Room for brackets -/

section Room

variable {α β : Type}

/-- A result for which room for `needed` brackets is needed. -/
def within (needed room : Nat) (x : α) : Option α := if needed ≤ room then some x else none

theorem within_of_le {needed room : Nat} (h : needed ≤ room) (x : α) :
    within needed room x = some x := if_pos h

theorem within_of_lt {needed room : Nat} (h : room < needed) (x : α) :
    within needed room x = none := if_neg (Nat.not_le.mpr h)

@[simp] theorem within_zero (room : Nat) (x : α) : within 0 room x = some x :=
  within_of_le (Nat.zero_le room) x

@[simp] theorem within_succ_succ (needed room : Nat) (x : α) :
    within (needed + 1) (room + 1) x = within needed room x := by
  simp only [within, Nat.add_le_add_iff_right]

/-- Work in two parts needs the room of the part that needs more. -/
theorem within_bind {needed needed' room : Nat} {x : α} {y : β} {next : α → Option β}
    (h : next x = within needed' room y) :
    (within needed room x >>= next) = within (max needed needed') room y := by
  by_cases hx : needed ≤ room
  · show (within needed room x).bind next = _
    rw [within_of_le hx, Option.bind_some, h]
    simp only [within, Nat.max_le, hx, true_and]
  · have hlt : room < max needed needed' := by omega
    rw [within_of_lt (Nat.not_le.mp hx), within_of_lt hlt]
    rfl

theorem map_within (needed room : Nat) (x : α) (f : α → β) :
    (within needed room x).map f = within needed room (f x) := by
  by_cases hx : needed ≤ room
  · rw [within_of_le hx, within_of_le hx, Option.map_some]
  · rw [within_of_lt (Nat.not_le.mp hx), within_of_lt (Nat.not_le.mp hx), Option.map_none]

end Room

namespace Json.Decoder

variable {α β γ : Type}

/-- The decoder reads `x` from a plain value if there is room for all of its brackets, and else
    nothing. -/
structure Recovers (decode : Decoder α) (v : Json) (x : α) : Prop where
  plain : v.isPlain = true
  read : ∀ room, decode (v.prune room) = within v.nesting room x

theorem Recovers.decode_eq {decode : Decoder α} {v : Json} {x : α} (h : decode.Recovers v x) :
    decode v = some x := by
  have hread := h.read v.nesting
  rwa [prune_of_nesting_le v (Nat.le_refl _), within_of_le (Nat.le_refl _)] at hread

/-! ### Parts -/

theorem recovers_text (s : String) : Recovers text (.string s) s :=
  ⟨rfl, fun room => (within_zero room s).symm⟩

theorem recovers_natural {n : Nat} (h : n < numberBound) : Recovers natural (.natural n) n := by
  refine ⟨decide_eq_true h, ?_⟩
  intro room
  show (if n < numberBound then some n else none) = _
  rw [if_pos h]
  exact (within_zero room n).symm

theorem recovers_bool (b : Bool) : Recovers bool (.bool b) b :=
  ⟨rfl, fun room => (within_zero room b).symm⟩

/-- A word is read as the first value with this word, so words have to differ. -/
theorem recovers_word {name : α → String} {values : List α} {x : α}
    (h : values.find? (fun y => name y == name x) = some x) :
    Recovers (word name values) (.string (name x)) x := by
  refine ⟨rfl, ?_⟩
  intro room
  show values.find? (fun y => name y == name x) = _
  rw [h]
  exact (within_zero room x).symm

/-- Items that are read one by one need the room of the one that needs most. -/
theorem mapM_items {item : Decoder α} {encode : α → Json} {xs : List α}
    (h : ∀ x ∈ xs, item.Recovers (encode x) x) (room : Nat) :
    (pruneItems (xs.map encode) room).mapM item =
      within (itemNesting (xs.map encode)) room xs := by
  induction xs with
  | nil => exact (within_zero room []).symm
  | cons x xs ih =>
    have hrest := ih fun y hy => h y (List.mem_cons_of_mem x hy)
    rw [List.map_cons, pruneItems, List.mapM_cons, (h x List.mem_cons_self).read room, hrest]
    refine within_bind ?_
    rw [bind_pure_comp]
    exact map_within _ room xs (x :: ·)

theorem recovers_list {item : Decoder α} {encode : α → Json} {xs : List α}
    (h : ∀ x ∈ xs, item.Recovers (encode x) x) :
    Recovers (list item) (.array (xs.map encode)) xs := by
  refine ⟨?_, ?_⟩
  · rw [isPlain, arePlainItems_iff, List.forall_mem_map]
    exact fun x hx => (h x hx).plain
  · intro room
    cases room with
    | zero => exact (within_of_lt (Nat.succ_pos _) xs).symm
    | succ room =>
      show (pruneItems (xs.map encode) room).mapM item = _
      rw [mapM_items h room, nesting, within_succ_succ]

/-- The same for members with their names. -/
theorem mapM_members {item : Decoder α} {encode : α → Json} {entries : List (String × α)}
    (h : ∀ e ∈ entries, item.Recovers (encode e.2) e.2) (room : Nat) :
    (pruneMembers (entries.map fun e => (e.1, encode e.2)) room).mapM
        (fun m => (item m.2).map (m.1, ·)) =
      within (memberNesting (entries.map fun e => (e.1, encode e.2))) room entries := by
  induction entries with
  | nil => exact (within_zero room []).symm
  | cons e rest ih =>
    have hrest := ih fun d hd => h d (List.mem_cons_of_mem e hd)
    rw [List.map_cons, pruneMembers, List.mapM_cons, (h e List.mem_cons_self).read room, map_within,
      hrest]
    refine within_bind ?_
    rw [bind_pure_comp]
    exact map_within _ room rest ((e.1, e.2) :: ·)

/-! ### Records -/

/-- A value in brackets is recovered if its parts are, with one bracket less. -/
theorem recovers_object {decode : Decoder α} {members : List (String × Json)} {x : α}
    (hplain : arePlainMembers members = true) (hunread : decode .unread = none)
    (hread : ∀ room, decode (.object (pruneMembers members room)) =
      within (memberNesting members) room x) :
    decode.Recovers (.object members) x := by
  refine ⟨hplain, ?_⟩
  intro room
  cases room with
  | zero => rw [prune, hunread, nesting, within_of_lt (Nat.succ_pos _)]
  | succ room => rw [prune, hread, nesting, within_succ_succ]

/-- An object with one member is read like its member, with one bracket less. -/
theorem Recovers.wrapped {part : Decoder α} {v : Json} {x : α} (h : part.Recovers v x)
    {decode : Decoder β} {name : String} {f : α → β} (hunread : decode .unread = none)
    (hmember : ∀ w, decode (.object [(name, w)]) = (part w).map f) :
    decode.Recovers (.object [(name, v)]) (f x) := by
  refine recovers_object ?_ hunread ?_
  · rw [arePlainMembers, arePlainMembers, h.plain, Bool.true_and]
  · intro room
    rw [pruneMembers, pruneMembers, hmember, h.read, map_within, memberNesting, memberNesting,
      Nat.max_zero]

/-- A name before two items in brackets is read like the items, with two brackets less. -/
theorem Recovers.paired {first : Decoder α} {second : Decoder β} {v w : Json} {x : α} {y : β}
    (hv : first.Recovers v x) (hw : second.Recovers w y) {decode : Decoder γ} {name : String}
    {f : α → β → γ} (hunread : decode .unread = none)
    (hitems : decode (.object [(name, .unread)]) = none)
    (hpair : ∀ v w, decode (.object [(name, .array [v, w])]) =
      first v >>= fun x => second w >>= fun y => some (f x y)) :
    decode.Recovers (.object [(name, .array [v, w])]) (f x y) := by
  refine recovers_object ?_ hunread ?_
  · simp only [arePlainMembers, isPlain, arePlainItems, hv.plain, hw.plain, Bool.and_self]
  · intro room
    rw [memberNesting, memberNesting, Nat.max_zero, nesting, pruneMembers, pruneMembers]
    cases room with
    | zero => rw [prune, hitems, within_of_lt (Nat.succ_pos _)]
    | succ room =>
      rw [prune, pruneItems, pruneItems, pruneItems, hpair, hv.read, hw.read, within_succ_succ]
      exact within_bind (within_bind (within_zero room (f x y)).symm)

/-- A field is read first, and then the rest of the record. -/
theorem Recovers.bind {decode : Decoder α} {v : Json} {x : α} (h : decode.Recovers v x)
    {needed room : Nat} {y : β} {next : α → Option β} (hnext : next x = within needed room y) :
    (decode.required (some (v.prune room)) >>= next) = within (max v.nesting needed) room y := by
  show (decode (v.prune room) >>= next) = _
  rw [h.read room]
  exact within_bind hnext

end Json.Decoder

end NaturalDeduction
