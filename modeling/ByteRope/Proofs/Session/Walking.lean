import ByteRope.Proofs.Session.Marking

/-!
# Walks through changing sessions

A walk looks at the store anew at every node, and between two chunks the session may go on: nodes on
the stack of the walk, above them or elsewhere come to remember their content, and from then on are
read in one chunk. The octets still to be read stay what they are (`Cursor.Fits.mono`), since they
are those of the trees on the stack and not of the store; so whatever happens on the way, a walk
ends with the octets of its range (`Session.Reachable.walks`).
-/

namespace ByteRope

variable {may : Deed → Prop} {schedule : Nat → Session → Session}

/-- Before each look for the next chunk the session goes on. -/
def Session.GoesBy (may : Deed → Prop) (schedule : Nat → Session → Session) : Prop :=
  ∀ (turn : Nat) (session : Session), ∃ marks, session.GoesOn may marks (schedule turn session)

/-- Reads to the end, chunk after chunk. Before each look for the next chunk the session goes on as
`schedule` says. -/
def Session.walk (schedule : Nat → Session → Session) (turn : Nat) (session : Session)
    (cursor : Cursor) : Except Fault (List Chunk × Session) :=
  match _h : cursor.next? (schedule turn session).store with
  | .error fault => .error fault
  | .ok none => .ok ([], schedule turn session)
  | .ok (some (chunk, rest)) =>
    (walk schedule (turn + 1) (schedule turn session) rest).map fun (chunks, last) =>
      (chunk :: chunks, last)
  termination_by cursor.weight
  decreasing_by exact Cursor.weight_lt_of_next? _h

theorem Session.walk_of_end {turn : Nat} {session : Session} {cursor : Cursor}
    (h : cursor.next? (schedule turn session).store = .ok none) :
    session.walk schedule turn cursor = .ok ([], schedule turn session) := by
  rw [walk]
  split
  next hnext => cases h.symm.trans hnext
  next => rfl
  next hnext => cases h.symm.trans hnext

theorem Session.walk_of_next {turn : Nat} {session last : Session} {cursor rest : Cursor}
    {chunk : Chunk} {chunks : List Chunk}
    (h : cursor.next? (schedule turn session).store = .ok (some (chunk, rest)))
    (hwalk : (schedule turn session).walk schedule (turn + 1) rest = .ok (chunks, last)) :
    session.walk schedule turn cursor = .ok (chunk :: chunks, last) := by
  rw [walk]
  split
  next hnext => cases h.symm.trans hnext
  next hnext => cases h.symm.trans hnext
  next hnext =>
    cases h.symm.trans hnext
    rw [hwalk, Except.map]

/-- A walk from a session that a census accounts for ends with the octets still to be read. Each
look for a chunk leaves stretches that fit the census of that moment, and a lighter stack. -/
theorem Session.Holds.walk {c : Census} {session : Session} {cursor : Cursor}
    (h : session.Holds may c) (hfits : cursor.Fits c) (hschedule : Session.GoesBy may schedule)
    (turn : Nat) :
    ∃ chunks last, session.walk schedule turn cursor = .ok (chunks, last) ∧
      (∀ chunk ∈ chunks, chunk.WF) ∧
      chunks.flatMap (fun chunk => chunk.bytes.toList) = cursor.octets := by
  obtain ⟨marks, hgoes⟩ := hschedule turn session
  obtain ⟨c', hle, hholds⟩ := hgoes.holds h
  rcases Cursor.next?_cases (hfits.mono hle) with
    ⟨hend, hoctets⟩ | ⟨chunk, rest, hnext, hwf, hrest, hoctets⟩
  · rw [← hholds.store] at hend
    exact ⟨[], schedule turn session, Session.walk_of_end hend, nofun, hoctets.symm⟩
  · rw [← hholds.store] at hnext
    have := Cursor.weight_lt_of_next? hnext
    obtain ⟨chunks, last, hwalk, hall, hflat⟩ := hholds.walk hrest hschedule (turn + 1)
    refine ⟨chunk :: chunks, last, Session.walk_of_next hnext hwalk,
      List.forall_mem_cons.mpr ⟨hwf, hall⟩, ?_⟩
    rw [List.flatMap_cons, hflat, hoctets]
  termination_by cursor.weight

/-- In every reachable session a walk through a range of a rope ends, and yields the octets of the
range in chunks that are not empty, however the session goes on between the chunks. -/
theorem Session.Reachable.walks {session : Session} {name : String} {rope : Rope}
    {offset len : Nat} (h : session.Reachable may)
    (hget : session.ropes.get? name = some rope) (hr : offset + len ≤ rope.byteLen)
    (hschedule : Session.GoesBy may schedule) :
    ∃ cursor chunks last, Cursor.ofRange rope offset len = .ok cursor ∧
      session.walk schedule 0 cursor = .ok (chunks, last) ∧
      (∀ chunk ∈ chunks, chunk.bytes ≠ #[]) ∧
      chunks.flatMap (fun chunk => chunk.bytes.toList) = (rope.content.drop offset).take len := by
  obtain ⟨c, hholds⟩ := h.holds
  have hlive := (hholds.ropes hget).1
  obtain ⟨chunks, last, hwalk, hall, hflat⟩ :=
    hholds.walk (Cursor.fits_singleton hlive hr) hschedule 0
  rw [Cursor.octets_singleton] at hflat
  refine ⟨_, chunks, last, Cursor.ofRange_eq (c.wf hlive) hr, hwalk, ?_, hflat⟩
  intro chunk hmem hnil
  have hlen := Chunk.length_bytes (hall chunk hmem).le_size
  rw [hnil] at hlen
  exact absurd hlen (Nat.ne_of_lt (hall chunk hmem).pos)

/-- A join of a join with itself has four chunks. If the inner one is copied together after the
first, its second place is read in one. -/
theorem walks_doubled :
    ∃ (session : Session) (rope : Rope) (schedule : Nat → Session → Session)
      (cursor : Cursor) (chunks : List Chunk) (last : Session),
      (session.Reachable fun _ => True) ∧ session.ropes.get? "r" = some rope ∧
      Session.GoesBy (fun _ => True) schedule ∧
      Cursor.ofRange rope 0 4 = .ok cursor ∧ session.walk schedule 0 cursor = .ok (chunks, last) ∧
      chunks.map Chunk.len = [1, 1, 2] ∧
      chunks.flatMap (fun chunk => chunk.bytes.toList) = (rope.content.drop 0).take 4 := by
  let session : Session := Session.empty.performAll [
    .make (.text "a") (some "a"), .make (.concat "a" "a" .standard) (some "i"),
    .make (.concat "i" "i" .standard) (some "r")]
  have h : session.Reachable fun _ => True :=
    Session.Reachable.empty.performAll fun _ _ _ _ => trivial
  let schedule (turn : Nat) (session : Session) : Session :=
    if turn = 1 then (session.perform (.ask (.flatten "i"))).2.2 else session
  have hschedule : Session.GoesBy (fun _ => True) schedule := by
    intro turn session
    by_cases hturn : turn = 1
    · simp only [schedule, if_pos hturn]
      exact ⟨_, .perform .refl fun _ _ => trivial⟩
    · simp only [schedule, if_neg hturn]
      exact ⟨_, .refl⟩
  let rope : Rope := (session.ropes.get? "r").getD default
  have hget : session.ropes.get? "r" = some rope := by
    have hsome : (session.ropes.get? "r").isSome = true := by decide +kernel
    obtain ⟨found, hfound⟩ := Option.isSome_iff_exists.mp hsome
    simp only [rope, hfound, Option.getD_some]
  have hr : 0 + 4 ≤ rope.byteLen := by decide +kernel
  have hlens : (session.walk schedule 0 [⟨rope, 0, 4⟩]).map (fun (chunks, _) =>
      chunks.map Chunk.len) = .ok [1, 1, 2] := by
    decide +kernel
  obtain ⟨cursor, chunks, last, hcursor, hwalk, -, hflat⟩ := h.walks hget hr hschedule
  refine ⟨session, rope, schedule, cursor, chunks, last, h, hget, hschedule, hcursor, hwalk, ?_,
    hflat⟩
  obtain ⟨c, hholds⟩ := h.holds
  rw [Cursor.ofRange_eq (c.wf (hholds.ropes hget).1) hr] at hcursor
  cases hcursor
  rw [hwalk] at hlens
  exact Except.ok.inj hlens

end ByteRope
