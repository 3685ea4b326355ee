/-
**Fields read one after another.**

All that is read of an array or a group is lists of components, one after the other: the required
fields, the optional fields that are marked, the copies of a prototype.  Where one of them begins
is told by the stream that the one before it has left, and the first that fails ends it.  Fields
without a mark, and those behind a failure, are not touched.

Main definitions:

* `WireTree.ReadInTurn` — the fields with a mark have been read, one after another;
* `WireTree.FailsAt` — reading them in turn fails at one of them.

Main results:

* `WireTree.readInTurn_iff`, `WireTree.exists_failsAt_iff` — how reading fields by marks ends;
* `WireTree.FailsAt.index_eq` — it fails at one place only;
* `WireTree.Kind.readPresent_eq`, `WireTree.ArrayOf.readCopies_eq` — marked fields and copies of a
  prototype are read like any list of fields.
-/

import WireTree.Proofs.Component.Decoding

set_option relaxedAutoImplicit false
set_option autoImplicit false

namespace WireTree

/-! ### Reading in turn -/

/-- Those of the fields `cs` that have a mark have been read one after another, each from the
stream that the one before it has left, and the others are as they were. -/
inductive ReadInTurn : List Bool → List Component → BitStream → List Component → BitStream → Prop
  | nil (s : BitStream) : ReadInTurn [] [] s [] s
  | absent {marks : List Bool} {c : Component} {cs cs' : List Component} {s s' : BitStream} :
      ReadInTurn marks cs s cs' s' → ReadInTurn (false :: marks) (c :: cs) s (c :: cs') s'
  | present {marks : List Bool} {c : Component} {cs cs' : List Component} {s s₁ s' : BitStream}
      {n : Nat} {kind : Kind} : c.kind.read s = (.ok n, kind, s₁) →
      ReadInTurn marks cs s₁ cs' s' →
      ReadInTurn (true :: marks) (c :: cs) s (c.withKind kind :: cs') s'

/-- Reading those of the fields `cs` that have a mark fails with `e` at the field of an index: the
fields before it have been read in turn, it is itself as its own read has left it, and the fields
after it are as they were. -/
inductive FailsAt (marks : List Bool) (cs : List Component) (s : BitStream) (e : WireError) :
    Nat → List Component → BitStream → Prop
  | intro {marks₁ marks₂ : List Bool} {before before' after : List Component} {c : Component}
      {s₁ s' : BitStream} {kind : Kind} : marks = marks₁ ++ true :: marks₂ →
      cs = before ++ c :: after → ReadInTurn marks₁ before s before' s₁ →
      c.kind.read s₁ = (.error e, kind, s') →
      FailsAt marks cs s e before.length (before' ++ c.withKind kind :: after) s'

variable {marks : List Bool} {c : Component} {cs cs' cs'' : List Component}
  {s s₁ s' s'' : BitStream} {e e' : WireError} {i j n : Nat} {kind : Kind}

/-- Reading in turn goes through if there is a mark for every field and no read fails. -/
theorem readInTurn_iff : ReadInTurn marks cs s cs' s' ↔
    marks.length = cs.length ∧ ∃ n, Kind.readPresent marks cs s = (.ok n, cs', s') := by
  constructor
  · intro h
    induction h with
    | nil s => exact ⟨rfl, 0, rfl⟩
    | absent _ ih =>
        obtain ⟨hlen, n, hread⟩ := ih
        exact ⟨congrArg (· + 1) hlen, n, Kind.readPresent_cons_false_eq_ok_iff.2 ⟨_, hread, rfl⟩⟩
    | present hc _ ih =>
        obtain ⟨hlen, m, hread⟩ := ih
        exact ⟨congrArg (· + 1) hlen, _,
          Kind.readPresent_cons_true_eq_ok_iff.2 ⟨_, _, _, m, _, hc, hread, rfl, rfl⟩⟩
  · rintro ⟨hlen, n, hread⟩
    induction cs generalizing marks s cs' n with
    | nil =>
        obtain rfl := List.length_eq_zero_iff.1 hlen
        cases hread
        exact .nil _
    | cons c cs ih =>
        rcases marks with _ | ⟨_ | _, marks⟩
        · cases hlen
        · obtain ⟨rest, hrest, rfl⟩ := Kind.readPresent_cons_false_eq_ok_iff.1 hread
          exact .absent (ih (Nat.succ.inj hlen) _ hrest)
        · obtain ⟨l, kind, s₁, m, rest, hc, hrest, rfl, rfl⟩ :=
            Kind.readPresent_cons_true_eq_ok_iff.1 hread
          exact .present hc (ih (Nat.succ.inj hlen) _ hrest)

/-! ### Where it fails -/

namespace FailsAt

theorem here (h : c.kind.read s = (.error e, kind, s')) :
    FailsAt (true :: marks) (c :: cs) s e 0 (c.withKind kind :: cs) s' :=
  @intro _ _ _ _ [] marks [] [] cs c s s' kind rfl rfl (.nil s) h

theorem absent (h : FailsAt marks cs s e i cs' s') :
    FailsAt (false :: marks) (c :: cs) s e (i + 1) (c :: cs') s' := by
  obtain ⟨rfl, rfl, hbefore, hfail⟩ := h
  exact @intro _ _ _ _ (false :: _) _ (c :: _) _ _ _ _ _ _ rfl rfl (.absent hbefore) hfail

theorem present (hc : c.kind.read s = (.ok n, kind, s₁)) (h : FailsAt marks cs s₁ e i cs' s') :
    FailsAt (true :: marks) (c :: cs) s e (i + 1) (c.withKind kind :: cs') s' := by
  obtain ⟨rfl, rfl, hbefore, hfail⟩ := h
  exact @intro _ _ _ _ (true :: _) _ (c :: _) _ _ _ _ _ _ rfl rfl (.present hc hbefore) hfail

/-- What the first field has to do with it. -/
theorem cases_cons (h : FailsAt marks (c :: cs) s e i cs' s') :
    (∃ marks' kind, marks = true :: marks' ∧ i = 0 ∧ c.kind.read s = (.error e, kind, s') ∧
      cs' = c.withKind kind :: cs) ∨
    (∃ marks' j rest, marks = false :: marks' ∧ i = j + 1 ∧ FailsAt marks' cs s e j rest s' ∧
      cs' = c :: rest) ∨
    ∃ marks' n kind s₁ j rest, marks = true :: marks' ∧ c.kind.read s = (.ok n, kind, s₁) ∧
      i = j + 1 ∧ FailsAt marks' cs s₁ e j rest s' ∧ cs' = c.withKind kind :: rest := by
  obtain ⟨rfl, hcs, hbefore, hfail⟩ := h
  cases hbefore with
  | nil _ =>
      obtain ⟨rfl, rfl⟩ := List.cons.inj hcs
      exact .inl ⟨_, _, rfl, rfl, hfail, rfl⟩
  | absent hbefore =>
      obtain ⟨rfl, rfl⟩ := List.cons.inj hcs
      exact .inr (.inl ⟨_, _, _, rfl, rfl, .intro rfl rfl hbefore hfail, rfl⟩)
  | present hc hbefore =>
      obtain ⟨rfl, rfl⟩ := List.cons.inj hcs
      exact .inr (.inr ⟨_, _, _, _, _, _, rfl, hc, rfl, .intro rfl rfl hbefore hfail, rfl⟩)

theorem not_nil : ¬ FailsAt marks [] s e i cs' s' := by
  rintro ⟨-, hcs, -, -⟩
  simp at hcs

/-- Reading fields in turn fails at one place only. -/
theorem index_eq (h : FailsAt marks cs s e i cs' s') (h' : FailsAt marks cs s e' j cs'' s'') :
    i = j := by
  induction cs generalizing marks s i j cs' cs'' with
  | nil => exact absurd h not_nil
  | cons c cs ih =>
      -- both runs see the same mark and the same end of the first field
      rcases h.cases_cons with ⟨_, _, rfl, rfl, hread, -⟩ | ⟨_, _, _, rfl, rfl, h, -⟩ |
        ⟨_, _, _, _, _, _, rfl, hread, rfl, h, -⟩ <;>
      rcases h'.cases_cons with ⟨_, _, hmarks, rfl, hread', -⟩ | ⟨_, _, _, hmarks, rfl, h', -⟩ |
        ⟨_, _, _, _, _, _, hmarks, hread', rfl, h', -⟩ <;> cases hmarks
      · rfl
      · cases hread.symm.trans hread'
      · exact congrArg (· + 1) (ih h h')
      · cases hread.symm.trans hread'
      · cases hread.symm.trans hread'
        exact congrArg (· + 1) (ih h h')

/-- Fields without a mark are as they were. -/
theorem getElem?_eq (h : FailsAt marks cs s e i cs' s') {j : Nat} (hj : marks[j]? ≠ some true) :
    cs'[j]? = cs[j]? := by
  induction cs generalizing marks s i j cs' with
  | nil => exact absurd h not_nil
  | cons c cs ih =>
      rcases h.cases_cons with ⟨_, _, rfl, -, -, rfl⟩ | ⟨_, _, _, rfl, -, hrest, rfl⟩ |
        ⟨_, _, _, _, _, _, rfl, -, -, hrest, rfl⟩ <;> rcases j with _ | j
      · exact absurd rfl hj
      · rfl
      · rfl
      · exact ih hrest hj
      · exact absurd rfl hj
      · exact ih hrest hj

end FailsAt

/-- Reading fields by marks fails as one of them does. -/
theorem exists_failsAt_iff : (∃ i, FailsAt marks cs s e i cs' s') ↔
    Kind.readPresent marks cs s = (.error e, cs', s') := by
  induction cs generalizing marks s cs' with
  | nil =>
      constructor
      · rintro ⟨i, h⟩
        exact absurd h FailsAt.not_nil
      · intro h
        rcases marks with _ | ⟨_, marks⟩ <;> cases h
  | cons c cs ih =>
      constructor
      · rintro ⟨i, h⟩
        rcases h.cases_cons with ⟨_, _, rfl, -, hread, rfl⟩ | ⟨_, _, _, rfl, -, hrest, rfl⟩ |
          ⟨_, _, _, _, _, _, rfl, hread, -, hrest, rfl⟩
        · rw [Kind.readPresent, if_pos rfl, hread]
        · rw [Kind.readPresent, if_neg Bool.false_ne_true, ih.1 ⟨_, hrest⟩]
        · simp only [Kind.readPresent, if_pos, hread, ih.1 ⟨_, hrest⟩]
      · intro h
        rcases marks with _ | ⟨_ | _, marks⟩
        · cases h
        · rcases hrest : Kind.readPresent marks cs s with ⟨_ | m, rest, s₁⟩ <;>
            simp only [Kind.readPresent, hrest] at h <;> cases h
          obtain ⟨i, h⟩ := ih.2 hrest
          exact ⟨i + 1, h.absent⟩
        · rcases hread : c.kind.read s with ⟨_ | n, kind, s₁⟩
          · simp only [Kind.readPresent, if_pos, hread] at h
            cases h
            exact ⟨0, .here hread⟩
          · rcases hrest : Kind.readPresent marks cs s₁ with ⟨_ | m, rest, s₂⟩ <;>
              simp only [Kind.readPresent, if_pos, hread, hrest] at h <;> cases h
            obtain ⟨i, h⟩ := ih.2 hrest
            exact ⟨i + 1, h.present hread⟩

/-- What has been read in turn has been read in one way. -/
theorem ReadInTurn.unique (h : ReadInTurn marks cs s cs' s') (h' : ReadInTurn marks cs s cs'' s'') :
    cs' = cs'' ∧ s' = s'' := by
  obtain ⟨-, n, hread⟩ := readInTurn_iff.1 h
  obtain ⟨-, n', hread'⟩ := readInTurn_iff.1 h'
  cases hread.symm.trans hread'
  exact ⟨rfl, rfl⟩

/-- What has been read in turn has not failed. -/
theorem ReadInTurn.not_failsAt (h : ReadInTurn marks cs s cs' s') :
    ¬ FailsAt marks cs s e i cs'' s'' := by
  intro hfail
  obtain ⟨-, n, hread⟩ := readInTurn_iff.1 h
  cases hread.symm.trans (exists_failsAt_iff.1 ⟨i, hfail⟩)

/-! ### Marked fields and copies -/

namespace Kind

/-- Fields that are all marked are read like any list of fields. -/
theorem readAll_eq {β : Type} [BitSource β] (cs : List Component) (s : β) :
    readAll cs s = readPresent (List.replicate cs.length true) cs s := by
  induction cs generalizing s with
  | nil => rfl
  | cons c cs ih =>
      rw [List.length_cons, List.replicate_succ, readAll, readPresent, if_pos rfl]
      rcases c.kind.read s with ⟨_ | n, kind, s₁⟩
      · rfl
      · simp only [ih s₁]

/-- The marked fields are read like any list of fields. -/
theorem readPresent_eq (marks : List Bool) (cs : List Component) (s : BitStream) :
    (readPresent marks cs s).1 = (readAll (marked marks cs) s).1 ∧
      (readPresent marks cs s).2.2 = (readAll (marked marks cs) s).2.2 := by
  induction cs generalizing marks s with
  | nil => rcases marks with _ | ⟨_, marks⟩ <;> exact ⟨rfl, rfl⟩
  | cons c cs ih =>
      rcases marks with _ | ⟨_ | _, marks⟩
      · exact ⟨rfl, rfl⟩
      · exact ih marks s
      · rw [marked_cons_true, readPresent, if_pos rfl, readAll]
        rcases c.kind.read s with ⟨_ | n, kind, s₁⟩
        · exact ⟨rfl, rfl⟩
        · obtain ⟨hresult, hstream⟩ := ih marks s₁
          rcases h : readPresent marks cs s₁ with ⟨_ | m, cs₁, s₂⟩ <;>
            rcases h' : readAll (marked marks cs) s₁ with ⟨_ | m', cs₂, s₃⟩ <;>
            rw [h, h'] at hresult hstream <;> cases hresult <;> cases hstream <;>
            simp only [h, h', and_self]

end Kind

/-- Copies of a prototype are read like any list of fields; `done` holds what was read before, the
last first. -/
theorem ArrayOf.readCopies_eq {β : Type} [BitSource β] (prototype : Component) (count n : Nat)
    (done : List Component) (s : β) : readCopies (Kind.readCopy prototype) count n done s =
      match Kind.readAll (List.replicate count prototype) s with
      | (.error e, _, s) => (.error e, s)
      | (.ok m, cs, s) => (.ok (n + m, done.reverse ++ cs), s) := by
  induction count generalizing n done s with
  | zero => simp [readCopies, Kind.readAll]
  | succ count ih =>
      rw [List.replicate_succ, readCopies, Kind.readAll, Kind.readCopy]
      rcases prototype.kind.read s with ⟨_ | m, kind, s₁⟩
      · rfl
      · simp only [ih]
        rcases Kind.readAll (List.replicate count prototype) s₁ with ⟨_ | l, cs, s₂⟩
        · rfl
        · simp [Nat.add_assoc]

end WireTree
