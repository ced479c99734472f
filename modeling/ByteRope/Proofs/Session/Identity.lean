import ByteRope.Proofs.Session.Reachable

/-!
# Identity

What ropes of a session are to equality, to digests and to sets is their encoding and their content
(`Session.Identifies`). The shapes of the trees, what has been said of the ranges, and what the
nodes remember of octets and digests have no part in it. It holds whatever function takes the
digests: that it is a function of the encoding and the octets is all that sets need of it.
-/

namespace ByteRope

variable {may : Deed → Prop} {c : Census} {session : Session} {left right : Rope}

namespace Session

/-- Equality finds the ropes to be the same, and changes nothing. -/
def Equals (session : Session) (left right : Rope) : Prop :=
  left.equal right session.store = .ok true session.store

/-- Equality, digests and sets tell the ropes of the session by encoding and content, and no command
changes what digests are. Ropes that are too long for one buffer have no digest and cannot be put
into a set. -/
structure Identifies (session : Session) : Prop where
  equal_eq : ∀ {left right}, session.Names left → session.Names right →
    left.equal right session.store =
      .ok (decide (left.encoding = right.encoding ∧ left.content = right.content)) session.store
  equivalence : Equivalence fun left right : { rope // session.Names rope } =>
    session.Equals left.1 right.1
  digest_eq : ∀ {rope}, session.Names rope →
    rope.digest.outcome session.store =
      if rope.byteLen ≤ Size.maxBuffer then
        .ok (session.store.digestOf rope.encoding rope.content.toArray)
      else .error .capacityOverflow
  digestOf_perform : ∀ command : Command,
    (session.perform command).2.2.store.digestOf = session.store.digestOf
  digests_eq : ∀ {left right}, session.Names left → session.Names right →
    session.Equals left right →
    RopeM.outcome (do return (← left.digest, ← right.digest)) session.store =
      (left.digest.outcome session.store).map fun digest => (digest, digest)
  collect : ∀ ropes : List Rope,
    (∀ rope ∈ ropes, session.Names rope ∧ rope.byteLen ≤ Size.maxBuffer) →
    ∃ found store, ropes.foldlM RopeSet.insert .empty session.store = .ok found store ∧
      (found.members.map Rope.key).Nodup ∧
      (∀ key, key ∈ found.members.map Rope.key ↔ key ∈ ropes.map Rope.key) ∧
      ∀ rope ∈ found.members, rope ∈ ropes
  overfull : ∀ ropes : List Rope, (∀ rope ∈ ropes, session.Names rope) →
    (∃ rope ∈ ropes, Size.maxBuffer < rope.byteLen) →
    RopeM.outcome (ropes.foldlM RopeSet.insert .empty) session.store = .error .capacityOverflow

namespace Holds

theorem live (h : session.Holds may c) {rope : Rope} (hrope : session.Names rope) :
    c.live rope := by
  obtain ⟨_, hget⟩ := hrope
  exact (h.ropes hget).1

theorem equals_iff (h : session.Holds may c) (hl : session.Names left)
    (hr : session.Names right) : session.Equals left right ↔ left.key = right.key := by
  unfold Equals
  rw [h.store, Rope.equal_eq (h.live hl) (h.live hr), Rope.key_eq_iff]
  refine ⟨fun hequal => ?_, fun hkey => by rw [decide_eq_true hkey]⟩
  injection hequal with hequal
  exact of_decide_eq_true hequal

theorem equivalence (h : session.Holds may c) :
    Equivalence fun left right : { rope // session.Names rope } =>
      session.Equals left.1 right.1 where
  refl rope := (h.equals_iff rope.2 rope.2).mpr rfl
  symm {left right} hequal :=
    (h.equals_iff right.2 left.2).mpr ((h.equals_iff left.2 right.2).mp hequal).symm
  trans {left right last} hequal hequal' :=
    (h.equals_iff left.2 last.2).mpr
      (((h.equals_iff left.2 right.2).mp hequal).trans
        ((h.equals_iff right.2 last.2).mp hequal'))

/-- Ropes of one key have one digest, or are both too long to have one. -/
theorem digests_eq (h : session.Holds may c) (hl : session.Names left)
    (hr : session.Names right) (hkey : left.key = right.key) :
    RopeM.outcome (do return (← left.digest, ← right.digest)) session.store =
      (left.digest.outcome session.store).map fun digest => (digest, digest) := by
  obtain ⟨hencoding, hcontent⟩ := Rope.key_eq_iff.mp hkey
  have hlen := (c.wf (h.live hl)).byteLen_eq (c.wf (h.live hr)) hcontent.symm
  let digest := c.store.digestOf left.encoding left.content.toArray
  -- The second digest is taken from the store that the first one has left, with more remembered.
  have hpair : RopeM.WF c (do return (← left.digest, ← right.digest))
      (fun pair _ => pair = (digest, digest) ∧ left.byteLen ≤ Size.maxBuffer)
      fun fault => fault = .capacityOverflow ∧ ¬left.byteLen ≤ Size.maxBuffer := by
    refine ((Rope.wf_digest (h.live hl)).faults fun _ hlong => ?_).bind
      fun first c' hle hfirst => ?_
    · exact ⟨hlong.1, Nat.not_le_of_lt hlong.2⟩
    · refine ((Rope.wf_digest (hle.live (h.live hr))).faults fun _ hlong => ?_).bind
        fun second c'' _ hsecond => RopeM.WF.pure ⟨?_, hfirst.2⟩
      · exact ⟨hlong.1, Nat.not_le_of_lt (hlen ▸ hlong.2)⟩
      · rw [hfirst.1, hsecond.1, hle.digestOf, ← hencoding, ← hcontent]
  rw [h.store, hpair.outcome_eq, Rope.outcome_digest (h.live hl)]
  split <;> rfl

theorem collect (h : session.Holds may c) {ropes : List Rope}
    (hropes : ∀ rope ∈ ropes, session.Names rope) :
    RopeM.WF c (ropes.foldlM RopeSet.insert .empty)
      (fun found _ => found.members = Rope.distinct ropes ∧
        ∀ rope ∈ ropes, rope.byteLen ≤ Size.maxBuffer)
      (RopeSet.Overfull ropes) :=
  RopeSet.wf_foldlM_insert nofun fun rope hmem => h.live (hropes rope hmem)

end Holds

theorem Reachable.digestOf_perform (h : session.Reachable may) (command : Command) :
    (session.perform command).2.2.store.digestOf = session.store.digestOf := by
  have hany : session.Reachable fun _ => True := h.mono fun _ _ => trivial
  obtain ⟨c, hholds⟩ := hany.holds
  obtain ⟨c', hle, hholds'⟩ := hholds.perform fun _ _ => trivial
  rw [hholds'.store, hle.digestOf, hholds.store]

/-- In every reachable session equality, digests and sets tell ropes by encoding and content. -/
theorem Reachable.identifies (h : session.Reachable may) : session.Identifies := by
  obtain ⟨c, hholds⟩ := h.holds
  refine ⟨fun hl hr => ?_, hholds.equivalence, fun hrope => ?_, h.digestOf_perform,
    fun hl hr hequal => ?_, fun ropes hropes => ?_, fun ropes hnames hlong => ?_⟩
  · rw [hholds.store]
    exact Rope.equal_eq (hholds.live hl) (hholds.live hr)
  · rw [hholds.store]
    exact Rope.outcome_digest (hholds.live hrope)
  · exact hholds.digests_eq hl hr ((hholds.equals_iff hl hr).mp hequal)
  · rw [hholds.store]
    rcases (hholds.collect fun rope hmem => (hropes rope hmem).1).outcome with
      ⟨found, c', hrun, -, hfound, -⟩ | ⟨_, _, -, -, rope, hmem, hlong⟩
    · refine ⟨found, c'.store, hrun, ?_⟩
      rw [hfound]
      exact ⟨Rope.nodup_keys_distinct ropes, fun _ => Rope.mem_keys_distinct,
        fun _ => Rope.mem_of_mem_distinct⟩
    · exact absurd (hropes rope hmem).2 (Nat.not_le_of_lt hlong)
  · obtain ⟨rope, hmem, hlong⟩ := hlong
    rw [hholds.store]
    rcases (hholds.collect hnames).outcome with ⟨_, _, -, -, -, hmax⟩ | ⟨_, _, hrun, rfl, -⟩
    · exact absurd (hmax rope hmem) (Nat.not_le_of_lt hlong)
    · rw [RopeM.outcome, hrun]

end Session

/-- A letter of two octets that was put together out of its halves, and the letter scanned at
once: the ropes are equal, though the first is a join and broken. -/
theorem identifies_letter :
    ∃ (session : Session) (left right : Rope), (session.Reachable fun _ => True) ∧
      session.Names left ∧ session.Names right ∧ session.Identifies ∧
      session.Equals left right ∧
      left.digest.outcome session.store = .ok (Digest.ofContent .utf8 #[0xc3, 0xa9]) ∧
      right.digest.outcome session.store = .ok (Digest.ofContent .utf8 #[0xc3, 0xa9]) ∧
      left.depth = 1 ∧ left.range = .broken ∧ right.depth = 0 ∧ right.range = .valid := by
  let session : Session := Session.empty.performAll [
    .make (.bytes #[0xc3] .utf8) (some "first"), .make (.bytes #[0xa9] .utf8) (some "second"),
    .make (.concat "first" "second" .standard) (some "left"),
    .make (.bytes #[0xc3, 0xa9] .utf8) (some "right")]
  have h : session.Reachable fun _ => True :=
    Session.Reachable.empty.performAll fun _ _ _ _ => trivial
  have hends : ((session.ropes.get? "left").bind fun left =>
      (session.ropes.get? "right").map fun right =>
        (left.key, right.key, left.depth, left.range, right.depth, right.range)) =
      some ((.utf8, [0xc3, 0xa9]), (.utf8, [0xc3, 0xa9]), 1, .broken, 0, .valid) := by
    decide +kernel
  have hdigests : ["left", "right"].map (fun name => (session.ropes.get? name).map fun rope =>
      rope.digest.outcome session.store) =
      [some (.ok (Digest.ofContent .utf8 #[0xc3, 0xa9])),
        some (.ok (Digest.ofContent .utf8 #[0xc3, 0xa9]))] := by
    decide +kernel
  obtain ⟨left, hleft, hends⟩ := Option.bind_eq_some_iff.mp hends
  obtain ⟨right, hright, hends⟩ := Option.map_eq_some_iff.mp hends
  simp only [Prod.mk.injEq] at hends
  obtain ⟨hkey, hkey', hshape⟩ := hends
  simp only [List.map_cons, List.map_nil, hleft, hright, Option.map_some, List.cons.injEq,
    Option.some.injEq, and_true] at hdigests
  have hidentifies := h.identifies
  have hsame := Rope.key_eq_iff.mp (hkey.trans hkey'.symm)
  have hequal : session.Equals left right := by
    rw [Session.Equals, hidentifies.equal_eq ⟨_, hleft⟩ ⟨_, hright⟩, decide_eq_true hsame]
  exact ⟨session, left, right, h, ⟨_, hleft⟩, ⟨_, hright⟩, hidentifies, hequal, hdigests.1,
    hdigests.2, hshape⟩

end ByteRope
