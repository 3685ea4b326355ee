/-
**When a write fails, and how.**

A write is a run of small steps: the check of a text, the check of a number of elements, and the
transfer of a word.  The steps are determined by the tree alone, in the order of the wire, and
whether a step fails is determined by the position that the steps before it have led to.  A write
fails exactly as the first of its steps that fails; no step asks for a wider transfer than there
is, so the capacity is the only thing a transfer can fail for.

Taken together, the transfers of a tree are as long as its size.  So a write goes through exactly
if all texts that are written are admitted, no array that is written has too few elements, and the
size fits into what is left of the capacity.

Main definitions:

* `WireTree.WireStep`, `WireTree.WireStep.fault` — steps, and why one fails at a position;
* `WireTree.firstFault` — why a run of steps fails;
* `WireTree.Kind.steps` — the steps of a tree;
* `WireTree.Follows` — a write takes the given steps.

Main results:

* `WireTree.Kind.follows_write` — the write of a tree takes the steps of the tree;
* `WireTree.write_ok_iff_and_error_iff` — **when a write fails, and how**.
-/

import WireTree.Proofs.Component.Encoding

set_option relaxedAutoImplicit false
set_option autoImplicit false

namespace WireTree

/-! ### Steps -/

/-- The steps of a write. -/
inductive WireStep where
  /-- A text is checked. -/
  | text (t : String)
  /-- The number of elements of an array is checked. -/
  | count (len minCount maxCount : Nat)
  /-- A word of this many bits is appended. -/
  | word (width : Nat)

/-- The failures that a write can end in. -/
def WireError.OfWrite : WireError → Prop
  | invalidText _ | textTooLong _ _ | countOutOfRange _ _ _ | overflow _ _ => True
  | _ => False

namespace WireStep

/-- How far a step moves the position. -/
def width : WireStep → Nat
  | word width => width
  | _ => 0

/-- How far a run of steps moves the position. -/
def totalWidth (steps : List WireStep) : Nat := (steps.map width).sum

/-- Why a step fails, if it does, at a position of a stream with the given limit on texts and the
given capacity.  The length of a text is checked before its bytes. -/
def fault (limit capacity pos : Nat) : WireStep → Option WireError
  | text t =>
    if limit < t.utf8ByteSize then some (.textTooLong t.utf8ByteSize limit)
    else if (0 : UInt8) ∈ t.toUTF8.data then some (.invalidText WireError.interiorNul)
    else none
  | count len minCount maxCount =>
    if minCount ≤ len ∧ len ≤ maxCount then none else some (.countOutOfRange len minCount maxCount)
  | word width =>
    if pos + width ≤ capacity then none else some (.overflow (pos + width) capacity)

theorem ofWrite_of_fault {limit capacity pos : Nat} {step : WireStep} {e : WireError}
    (h : step.fault limit capacity pos = some e) : e.OfWrite := by
  cases step with
  | text t =>
      rw [fault] at h
      split at h
      · cases h
        trivial
      · split at h <;> cases h
        trivial
  | count len minCount maxCount =>
      rw [fault] at h
      split at h <;> cases h
      trivial
  | word width =>
      rw [fault] at h
      split at h <;> cases h
      trivial

end WireStep

/-- Why a run of steps fails, if it does: as the first step that does. -/
def firstFault (limit capacity : Nat) : (pos : Nat) → List WireStep → Option WireError
  | _, [] => none
  | pos, step :: steps =>
    match step.fault limit capacity pos with
    | some e => some e
    | none => firstFault limit capacity (pos + step.width) steps

theorem firstFault_append (limit capacity pos : Nat) (xs ys : List WireStep) :
    firstFault limit capacity pos (xs ++ ys) =
      (firstFault limit capacity pos xs).or
        (firstFault limit capacity (pos + WireStep.totalWidth xs) ys) := by
  induction xs generalizing pos with
  | nil => rfl
  | cons x xs ih =>
      rw [List.cons_append, firstFault, firstFault]
      cases x.fault limit capacity pos with
      | some e => rfl
      | none =>
          simp only [ih]
          rw [WireStep.totalWidth, WireStep.totalWidth, List.map_cons, List.sum_cons, Nat.add_assoc]

/-- A run of steps fails as the first step that fails: those before it do not, and it does at the
position that they have led to. -/
theorem firstFault_eq_some_iff {limit capacity pos : Nat} {steps : List WireStep} {e : WireError} :
    firstFault limit capacity pos steps = some e ↔
      ∃ done step rest, steps = done ++ step :: rest ∧ firstFault limit capacity pos done = none ∧
        step.fault limit capacity (pos + WireStep.totalWidth done) = some e := by
  constructor
  · intro h
    induction steps generalizing pos with
    | nil => cases h
    | cons step steps ih =>
        rw [firstFault] at h
        cases hstep : step.fault limit capacity pos with
        | some e' =>
            rw [hstep] at h
            exact ⟨[], step, steps, rfl, rfl, hstep.trans h⟩
        | none =>
            rw [hstep] at h
            obtain ⟨done, step', rest, rfl, hdone, hfault⟩ := ih h
            refine ⟨step :: done, step', rest, rfl, ?_, ?_⟩
            · rw [firstFault, hstep]
              exact hdone
            · rw [WireStep.totalWidth, List.map_cons, List.sum_cons, ← Nat.add_assoc]
              exact hfault
  · rintro ⟨done, step, rest, rfl, hdone, hfault⟩
    rw [firstFault_append, hdone, firstFault, hfault]
    rfl

theorem ofWrite_of_firstFault {limit capacity pos : Nat} {steps : List WireStep} {e : WireError}
    (h : firstFault limit capacity pos steps = some e) : e.OfWrite := by
  obtain ⟨_, _, _, -, -, hfault⟩ := firstFault_eq_some_iff.1 h
  exact WireStep.ofWrite_of_fault hfault

/-! ### Writes that take given steps -/

section Follows

variable {α β : Type} {s : BitStream} {xs ys : List WireStep}

/-- Why a run of steps fails on a stream, if it does. -/
def BitStream.faultOf (s : BitStream) (steps : List WireStep) : Option WireError :=
  firstFault s.maxTextBytes s.capacityBits s.writePos steps

/-- A write on `s` that takes the given steps: it has failed as the first one that fails, or has
gone through all of them and moved the position as far as they do. -/
inductive Follows (s : BitStream) (steps : List WireStep) : Outcome BitStream α → Prop
  | error {e : WireError} {s' : BitStream} :
      s.faultOf steps = some e → Follows s steps (.error e, s')
  | ok {a : α} {s' : BitStream} : s.faultOf steps = none →
      s'.writePos = s.writePos + WireStep.totalWidth steps → s'.maxTextBytes = s.maxTextBytes →
      s'.capacityBits = s.capacityBits → Follows s steps (.ok a, s')

/-- What takes no steps goes through. -/
theorem Follows.pure (s : BitStream) (a : α) : Follows s [] (.ok a, s) := .ok rfl rfl rfl rfl

/-- One write after another takes the steps of both: where the first fails the whole fails alike,
and where it goes through the whole goes on as the second. -/
theorem Follows.andThen {r : Outcome BitStream α} {r' : Outcome BitStream β} (h : Follows s xs r)
    (herror : ∀ e s₁, r = (.error e, s₁) → r' = (.error e, s₁))
    (hok : ∀ a s₁, r = (.ok a, s₁) → Follows s₁ ys r') : Follows s (xs ++ ys) r' := by
  cases h with
  | error hfault =>
      rw [herror _ _ rfl]
      refine .error ?_
      rw [BitStream.faultOf] at hfault ⊢
      rw [firstFault_append, hfault]
      rfl
  | @ok a s₁ hfault hpos hlimit hcapacity =>
      have hrest : s.faultOf (xs ++ ys) = s₁.faultOf ys := by
        rw [BitStream.faultOf] at hfault ⊢
        rw [firstFault_append, hfault, BitStream.faultOf, hpos, hlimit, hcapacity]
        rfl
      cases hok a s₁ rfl with
      | error hfault' => exact .error (hrest.trans hfault')
      | ok hfault' hpos' hlimit' hcapacity' =>
          refine .ok (hrest.trans hfault') ?_ (hlimit'.trans hlimit) (hcapacity'.trans hcapacity)
          rw [hpos', hpos, WireStep.totalWidth, WireStep.totalWidth, WireStep.totalWidth,
            List.map_append, List.sum_append, Nat.add_assoc]

/-- A step that is a check only, and then other steps. -/
theorem Follows.check {step : WireStep} {r : Outcome BitStream α} (hwidth : step.width = 0)
    (hstep : step.fault s.maxTextBytes s.capacityBits s.writePos = none) (h : Follows s xs r) :
    Follows s (step :: xs) r := by
  have hfaults : s.faultOf (step :: xs) = s.faultOf xs := by
    rw [BitStream.faultOf, firstFault, hstep, hwidth]
    rfl
  cases h with
  | error hfault => exact .error (hfaults.trans hfault)
  | ok hfault hpos hlimit hcapacity =>
      refine .ok (hfaults.trans hfault) ?_ hlimit hcapacity
      rw [hpos, WireStep.totalWidth, WireStep.totalWidth, List.map_cons, List.sum_cons, hwidth,
        Nat.zero_add]

/-- A step that fails. -/
theorem Follows.fault {step : WireStep} {e : WireError} {s' : BitStream}
    (h : step.fault s.maxTextBytes s.capacityBits s.writePos = some e) :
    Follows (α := α) s (step :: xs) (.error e, s') := by
  refine .error ?_
  rw [BitStream.faultOf, firstFault, h]

/-- A transfer that is not too wide can fail for the capacity only. -/
theorem follows_writeBits (s : BitStream) (value : UInt32) {width : Nat}
    (hwidth : width ≤ maxTransferBits) : Follows s [.word width] (s.writeBits value width) := by
  by_cases hroom : s.writePos + width ≤ s.capacityBits
  · rw [BitStream.writeBits_of_le hwidth hroom]
    refine .ok ?_ ?_ rfl rfl
    · rw [BitStream.faultOf, firstFault, WireStep.fault, if_pos hroom]
      rfl
    · simp [WireStep.totalWidth, WireStep.width]
  · rw [BitStream.writeBits_of_capacity_lt hwidth (by omega)]
    refine .fault ?_
    rw [WireStep.fault, if_neg hroom]

theorem follows_writeCells {cells : List Cell} (hwidth : ∀ c ∈ cells, c.width ≤ maxTransferBits)
    (s : BitStream) : Follows s (cells.map fun c => .word c.width) (s.writeCells cells) := by
  induction cells generalizing s with
  | nil => exact .pure s ()
  | cons c cells ih =>
      obtain ⟨hc, hcells⟩ := List.forall_mem_cons.1 hwidth
      rw [BitStream.writeCells]
      refine (follows_writeBits s c.word hc).andThen ?_ ?_
      · intro e s₁ h
        rw [h]
      · intro _ s₁ h
        rw [h]
        exact ih hcells s₁

end Follows

/-! ### Leaves -/

namespace Scalar

/-- The steps of a leaf: a text is checked before its bytes and its terminator. -/
def steps : Scalar → List WireStep
  | text t => .text t :: List.replicate (t.utf8ByteSize + 1) (.word 8)
  | bounded r => [.word (bitsForSpan r.lower r.upper)]
  | v => v.widths.map .word

variable {v : Scalar}

theorem WellFormed.steps_eq (hv : v.WellFormed) (htext : v.variant ≠ .text) :
    v.steps = v.cells.map fun c => .word c.width := by
  cases v with
  | text t => exact absurd rfl htext
  | bounded r =>
      rw [steps, ← BoundedInt.WellFormed.width_eq hv]
      rfl
  | _ => simp [steps, widths]

theorem map_textCells (t : String) : (textCells t).map (fun c => WireStep.word c.width) =
    List.replicate (t.utf8ByteSize + 1) (.word 8) := by
  refine List.eq_replicate_iff.2 ⟨by simp [textCells], ?_⟩
  intro step hstep
  simp only [textCells, List.map_map, List.mem_map] at hstep
  obtain ⟨byte, -, rfl⟩ := hstep
  rfl

/-- The write of a leaf takes the steps of the leaf. -/
theorem follows_write (hv : v.WellFormed) (s : BitStream) : Follows s v.steps (v.write s) := by
  by_cases htext : v.variant = .text
  · obtain ⟨t, rfl⟩ := eq_text_of_variant htext
    have hcells : Follows s ((textCells t).map fun c => .word c.width)
        (s.writeCells (textCells t)) := follows_writeCells hv.width_le s
    rw [map_textCells] at hcells
    -- the checks of the text come in the order in which the step has them
    have hcheck : Follows s (text t).steps (s.writeText t) := by
      rw [BitStream.writeText, BitStream.textFault]
      by_cases hlimit : s.maxTextBytes < t.utf8ByteSize
      · rw [if_pos hlimit]
        refine .fault ?_
        rw [WireStep.fault, if_pos hlimit]
      · rw [if_neg hlimit]
        by_cases hnul : (0 : UInt8) ∈ t.toUTF8.data
        · rw [if_pos (by simpa using hnul)]
          refine .fault ?_
          rw [WireStep.fault, if_neg hlimit, if_pos hnul]
        · rw [if_neg (by simpa using hnul)]
          refine .check rfl ?_ hcells
          rw [WireStep.fault, if_neg hlimit, if_neg hnul]
    rw [write, ← List.append_nil (text t).steps]
    refine hcheck.andThen ?_ ?_
    · intro e s₁ h
      simp only [h]
    · intro _ s₁ h
      simp only [h]
      exact .pure s₁ _
  · rw [write_of_ne_text htext, hv.steps_eq htext, ← List.append_nil (v.cells.map _)]
    refine (follows_writeCells hv.width_le s).andThen ?_ ?_
    · intro e s₁ h
      rw [h]
    · intro _ s₁ h
      rw [h]
      exact .pure s₁ _

end Scalar

/-- The write of a set of bits takes the steps of the leaf. -/
theorem BitSet.follows_write {b : BitSet} (hb : b.WellFormed) (s : BitStream) :
    Follows s (Scalar.bits b).steps (b.write s) := by
  rw [write_eq]
  exact Scalar.follows_write (v := .bits b) hb s

/-! ### Trees -/

namespace Kind

mutual

/-- The steps of a tree.  The number of elements of an array is checked before the count field is
written. -/
def steps : Kind → List WireStep
  | scalar v => v.steps
  | array a =>
    .count a.len a.minCount a.maxCount ::
      .word (bitsForSpan a.countField.lower a.countField.upper) :: stepsAll a.elements
  | group g =>
    stepsAll g.required ++ ((Scalar.bits g.indicator).steps ++
      stepsPresent g.indicator.toList g.optional)
termination_by structural k => k

/-- The steps of a list of components, one after the other. -/
def stepsAll : List Component → List WireStep
  | [] => []
  | c :: cs => steps c.kind ++ stepsAll cs
termination_by structural cs => cs

/-- The steps of the components marked present. -/
def stepsPresent : List Bool → List Component → List WireStep
  | present :: marks, c :: cs => (if present then steps c.kind else []) ++ stepsPresent marks cs
  | _, [] => []
  | [], _ :: _ => []
termination_by structural _ cs => cs

end

theorem stepsPresent_eq (marks : List Bool) (cs : List Component) :
    stepsPresent marks cs = stepsAll (marked marks cs) := by
  induction cs generalizing marks with
  | nil => cases marks <;> rfl
  | cons c cs ih =>
      rcases marks with _ | ⟨_ | _, marks⟩
      · rfl
      · exact ih marks
      · exact congrArg (steps c.kind ++ ·) (ih marks)

theorem follows_writeAll {cs : List Component}
    (hcs : ∀ c ∈ cs, ∀ s, Follows s c.kind.steps (c.kind.write s)) (n : Nat) (s : BitStream) :
    Follows s (stepsAll cs) (writeAll cs n s) := by
  induction cs generalizing n s with
  | nil => exact .pure s n
  | cons c cs ih =>
      obtain ⟨hc, hcs⟩ := List.forall_mem_cons.1 hcs
      rw [writeAll]
      refine (hc s).andThen ?_ ?_
      · intro e s₁ h
        rw [h]
      · intro m s₁ h
        rw [h]
        exact ih hcs (n + m) s₁

/-- The write of a tree takes the steps of the tree. -/
theorem follows_write {k : Kind} (hk : k.WellFormed) :
    ∀ s : BitStream, Follows s k.steps (k.write s) := by
  induction hk with
  | scalar hv =>
      intro s
      rw [write]
      exact Scalar.follows_write hv s
  | @array a hcons _ _ _ ih =>
      intro s
      rw [write, steps, ← hcons.countField_wellFormed.width_eq]
      by_cases hadm : a.admits a.len = true
      · have hwidth : a.countField.width ≤ maxTransferBits := by
          rw [hcons.countField_wellFormed.width_eq]
          exact bitsForSpan_le _ _
        rw [if_pos hadm]
        refine .check rfl (if_pos (ArrayOf.admits_iff.1 hadm)) ?_
        refine (follows_writeBits s a.countField.offset hwidth).andThen ?_ ?_
        · intro e s₁ h
          rw [h]
        · intro _ s₁ h
          rw [h]
          exact follows_writeAll ih _ s₁
      · rw [if_neg hadm]
        exact .fault (if_neg (mt ArrayOf.admits_iff.2 hadm))
  | @group g hcons _ _ ihreq ihopt =>
      intro s
      rw [write, steps]
      refine (follows_writeAll ihreq 0 s).andThen ?_ ?_
      · intro e s₁ h
        rw [h]
      · intro n s₁ h
        rw [h]
        refine (BitSet.follows_write hcons.indicator_wellFormed s₁).andThen ?_ ?_
        · intro e s₂ h
          simp only [h]
        · intro m s₂ h
          simp only [h]
          -- of the optional fields only those that are present are written
          rw [writePresent_eq, stepsPresent_eq]
          refine follows_writeAll ?_ (n + m) s₂
          intro c hc
          exact ihopt c (mem_of_mem_marked hc)

variable {k node : Kind}

theorem WellFormed.of_emits (hk : k.WellFormed) (h : k.Emits node) : node.WellFormed := by
  induction h with
  | root _ => exact hk
  | element hc _ ih =>
      cases hk with
      | array _ _ hwf => exact ih (hwf _ hc)
  | required hc _ ih =>
      cases hk with
      | group _ hreq _ => exact ih (hreq _ hc)
  | optional hc _ ih =>
      cases hk with
      | group _ _ hopt => exact ih (hopt _ (GroupOf.mem_optional_of_mem_present hc))

/-- What has to hold of the nodes that are written, spelled out: an array never has too many
elements. -/
theorem emitsOnly_sendable_iff (hk : k.WellFormed) {limit : Nat} :
    k.EmitsOnly (Sendable limit) ↔
      (∀ t, k.Emits (.scalar (.text t)) →
        (0 : UInt8) ∉ t.toUTF8.data ∧ t.utf8ByteSize ≤ limit) ∧
      ∀ a, k.Emits (.array a) → a.minCount ≤ a.len := by
  constructor
  · intro h
    refine ⟨?_, ?_⟩
    · intro t ht
      exact (h _ ht).symm
    · intro a ha
      exact (ArrayOf.admits_iff.1 (h _ ha)).1
  · rintro ⟨htexts, harrays⟩ node hnode
    cases node with
    | scalar v =>
        cases v with
        | text t => exact (htexts t hnode).symm
        | _ => trivial
    | array a =>
        cases hk.of_emits hnode with
        | array hcons _ _ => exact ArrayOf.admits_iff.2 ⟨harrays a hnode, hcons.len_le⟩
    | group g => trivial

end Kind

/-! ### When a write fails -/

/-- **When a write fails, and how.**  Whatever component has come up, wherever a stream stands: a
write goes through exactly if every text that is written has no zero byte and is not too long,
every array that is written has enough elements, and the size fits into the capacity; and it fails
exactly as the first of its steps that fails. -/
theorem write_ok_iff_and_error_iff {k : Kind} {s : BitStream} (hk : k.Reachable)
    (hs : s.Reachable) :
    ((∃ n, (k.write s).1 = .ok n) ↔
      (∀ t, k.Emits (.scalar (.text t)) →
        (0 : UInt8) ∉ t.toUTF8.data ∧ t.utf8ByteSize ≤ s.maxTextBytes) ∧
      (∀ a, k.Emits (.array a) → a.minCount ≤ a.len) ∧
      s.writePos + k.measure.1 ≤ s.capacityBits) ∧
    ∀ e, ((k.write s).1 = .error e ↔
        firstFault s.maxTextBytes s.capacityBits s.writePos k.steps = some e) ∧
      ((k.write s).1 = .error e → e.OfWrite) := by
  have hwf := hk.wellFormed
  have herror : ∀ e, (k.write s).1 = .error e ↔ s.faultOf k.steps = some e := by
    intro e
    rcases hw : k.write s with ⟨e' | n, s'⟩ <;> have hfollows := Kind.follows_write hwf s <;>
      rw [hw] at hfollows
    · cases hfollows with
      | error hfault => simp [hfault]
    · cases hfollows with
      | ok hfault => simp [hfault]
  refine ⟨?_, ?_⟩
  · rw [← and_assoc, ← Kind.emitsOnly_sendable_iff hwf, hwf.measure_fst]
    constructor
    · rintro ⟨n, hn⟩
      obtain ⟨-, happ, hemit⟩ := Kind.appends_of_write hwf hs.wellFormed
        (show k.write s = (.ok n, (k.write s).2) from Prod.ext hn rfl)
      have hpos := happ.writePos_eq hs.wellFormed
      have hcapacity := happ.wellFormed.writePos_le
      rw [hwf.length_encode] at hpos
      rw [hpos, happ.capacityBits_eq] at hcapacity
      exact ⟨hemit, hcapacity⟩
    · rintro ⟨hemit, hroom⟩
      obtain ⟨s', hw⟩ := Kind.exists_write hwf hs.wellFormed hemit hroom
      exact ⟨k.size, by rw [hw]⟩
  · intro e
    refine ⟨herror e, ?_⟩
    intro he
    exact ofWrite_of_firstFault ((herror e).1 he)

/-- An array with one element and a text of two bytes are 27 bits.  Two bytes of room are used up
before the second byte of the text. -/
theorem write_ok_iff_and_error_iff_text : ∃ (k : Kind) (s t : BitStream), k.Reachable ∧
    s.Reachable ∧ t.Reachable ∧ (k.write s).1 = .ok 27 ∧
    (∀ text, k.Emits (.scalar (.text text)) →
      (0 : UInt8) ∉ text.toUTF8.data ∧ text.utf8ByteSize ≤ s.maxTextBytes) ∧
    (∀ a, k.Emits (.array a) → a.minCount ≤ a.len) ∧
    s.writePos + k.measure.1 ≤ s.capacityBits ∧
    (k.write t).1 = .error (.overflow 19 16) ∧ WireError.OfWrite (.overflow 19 16) := by
  have hbool : (Kind.scalar (.bool true)).Reachable := .free trivial
  have htext : (Kind.scalar (.text "hi")).Reachable := .free trivial
  have hempty : (Kind.array ⟨⟨none, .scalar (.bool true)⟩, 1, 3, ⟨0, 1, 3, none, by decide⟩, [],
      none⟩).Reachable :=
    .make hbool (show ArrayOf.make ⟨none, _⟩ 1 3 = _ from rfl)
  have hone := Kind.Reachable.pushComponent hempty hbool
    (show ArrayOf.pushComponent _ ⟨none, _⟩ = _ from rfl)
  have hgroup := Kind.Reachable.addField .empty hone
    (show GroupOf.addField _ ⟨none, _⟩ false = _ from rfl)
  have hwhole := Kind.Reachable.addField hgroup htext
    (show GroupOf.addField _ ⟨none, _⟩ false = _ from rfl)
  have hs : (BitStream.Origin.limits {}).stream.Reachable := .origin _
  have ht : (BitStream.Origin.limits ⟨2, 1024⟩).stream.Reachable := .origin _
  obtain ⟨hok, -⟩ := write_ok_iff_and_error_iff hwhole hs
  obtain ⟨-, herror⟩ := write_ok_iff_and_error_iff hwhole ht
  obtain ⟨htexts, harrays, hroom⟩ := hok.1 ⟨27, by decide +kernel⟩
  have hoverflow := (herror (.overflow 19 16)).1.2 (by decide +kernel)
  exact ⟨_, _, _, hwhole, hs, ht, by decide +kernel, htexts, harrays, hroom, hoverflow,
    (herror _).2 hoverflow⟩

end WireTree
