import ByteRope.Proofs.Rope.Footprints
import ByteRope.Proofs.Session.Warming

/-!
# Footprints of commands

Which nodes a command of a session may let remember their content (`Command.Marks`), and what that
adds up to over a run (`Session.GoesOn`): commands, names for children of ropes and reads of any
nodes in use, one after another, leave all other buffers as they are (`Session.GoesOn.spares`).
Builders copy pieces when they like to, so a command on a builder may mark every node.
-/

namespace ByteRope

open Rope (Made)

variable {may : Deed → Prop} {c : Census} {marks : NodeId → Prop} {session session' : Session}

/-! ## Commands -/

/-- The node is the root of the rope with this name. -/
def Session.RootOf (session : Session) (name : String) (id : NodeId) : Prop :=
  ∃ rope, session.ropes.get? name = some rope ∧ rope.id = id

/-- The nodes that a recipe may let remember their content: the views of something unbalanced among
the pieces of a rope that is rebalanced. -/
def Recipe.Marks (session : Session) : Recipe → NodeId → Prop
  | .rebalance name _, id => ∃ rope piece, session.ropes.get? name = some rope ∧
    piece ∈ rope.pieces ∧ piece.isLoose = true ∧ piece.id = id
  | .build _, _ => True
  | _, _ => False

/-- The nodes that a question may let remember their content: the roots of the ropes that are read
in one buffer. -/
def Query.Marks (session : Session) : Query → NodeId → Prop
  | .flatten name, id | .lossyText name, id => session.RootOf name id
  | .sameDigest left right, id => session.RootOf left id ∨ session.RootOf right id
  | .countDistinct names, id => ∃ name ∈ names, session.RootOf name id
  | _, _ => False

/-- The nodes that a command may let remember their content. -/
def Command.Marks (session : Session) : Command → NodeId → Prop
  | .make recipe _, id => recipe.Marks session id
  | .ask query, id => query.Marks session id
  | .pushRope .., _ | .pushBytes .., _ => True
  | .drop _, _ | .newBuilder .., _ | .copyBuilder .., _ => False

namespace SessionM

variable {α β : Type} {m : SessionM α} {f : α → SessionM β}

/-- A computation on ropes changes no names. -/
theorem exists_of_onStore {computation : RopeM α} {a : α}
    (h : onStore computation session = .ok a session') :
    computation session.store = .ok a session'.store ∧ session'.ropes = session.ropes := by
  obtain ⟨store, ropes, builders⟩ := session
  unfold onStore at h
  cases hrun : computation store <;> simp only [hrun] at h <;> cases h
  exact ⟨rfl, rfl⟩

/-- From the session the computation changes no buffers but those of the nodes in `marks`. -/
def Touches (marks : NodeId → Prop) (m : SessionM α) (session : Session) : Prop :=
  match m session with
  | .ok _ session' | .error _ session' => session.store.Spares marks session'.store

namespace Touches

theorem pure (a : α) : Touches marks (pure a) session := .refl session.store

theorem throw (failure : Failure) : Touches marks (throw failure : SessionM α) session :=
  .refl session.store

theorem bind (hm : Touches marks m session)
    (hf : ∀ a session', m session = .ok a session' → Touches marks (f a) session') :
    Touches marks (m >>= f) session := by
  unfold Touches at hm ⊢
  rw [run_bind]
  cases hrun : m session with
  | error => simpa only [hrun] using hm
  | ok a session' =>
    have hf := hf a session' hrun
    unfold Touches at hf
    simp only [hrun] at hm ⊢
    split at hf <;> exact hm.trans hf

theorem onStore {computation : RopeM α} (h : RopeM.Touches marks computation)
    (session : Session) : Touches marks (onStore computation) session := by
  obtain ⟨store, ropes, builders⟩ := session
  have h := h store
  unfold Touches SessionM.onStore
  cases hrun : computation store <;> simpa only [hrun] using h

/-- A computation on ropes whose value is part of the answer. -/
theorem answer {computation : RopeM α} (h : RopeM.Touches marks computation) (reply : α → β) :
    Touches marks (SessionM.onStore computation >>= fun a => Pure.pure (reply a)) session :=
  (onStore h session).bind fun _ _ _ => pure _

theorem careful {computation : RopeM (Except Refusal α)} (h : RopeM.Touches marks computation) :
    Touches marks (careful computation) session := by
  refine (onStore h session).bind fun result _ _ => ?_
  cases result with
  | ok value => exact pure value
  | error refusal => exact throw _

theorem named (name : String) : Touches marks (SessionM.rope name) session := by
  unfold Touches
  rw [run_rope]
  cases session.ropes.get? name <;> exact .refl session.store

/-- An operation on a rope with a name, in the session in which it has the name. -/
theorem rope {name : String} {f : Rope → SessionM β}
    (h : ∀ rope, session.ropes.get? name = some rope → Touches marks (f rope) session) :
    Touches marks (SessionM.rope name >>= f) session := by
  unfold Touches
  rw [run_bind, run_rope]
  cases hget : session.ropes.get? name with
  | none => exact .refl session.store
  | some rope => exact h rope hget

theorem builder {name : String} {f : Builder → SessionM β}
    (h : ∀ builder, Touches marks (f builder) session) :
    Touches marks (SessionM.builder name >>= f) session := by
  unfold Touches
  rw [run_bind, run_builder]
  cases session.builders.get? name with
  | none => exact .refl session.store
  | some builder => exact h builder

theorem builderReply (builder : Builder) : Touches marks (builderReply builder) session :=
  answer (.lift _) _

end Touches

end SessionM

open SessionM (Touches)

theorem Recipe.touches_perform (recipe : Recipe) (session : Session)
    (hbuild : ∀ name, recipe ≠ .build name) :
    Touches (recipe.Marks session) recipe.perform session := by
  cases recipe with
  | bytes | text | octets | empty => exact .onStore Rope.touches_ofBytes session
  | asciiOnlyLeaf => exact .onStore Rope.touches_asciiOnlyLeaf session
  | validLeaf => exact .onStore Rope.touches_validLeaf session
  | invalidLeaf => exact .onStore (Rope.touches_invalidLeaf _) session
  | taggedLeaf => exact .onStore Rope.touches_taggedLeaf session
  | copy name => exact .named name
  | concat =>
    exact .rope fun _ _ => .rope fun _ _ => .onStore Rope.touches_concat session
  | taggedJoin =>
    exact .rope fun _ _ => .rope fun _ _ => .onStore (Rope.touches_taggedJoin _ _ _) session
  | chain =>
    exact .rope fun _ _ => .rope fun _ _ => .onStore (Rope.touches_chain _ _) session
  | slice => exact .rope fun _ _ => .onStore Rope.touches_slice session
  | slice? => exact .rope fun _ _ => .careful Rope.touches_slice?
  | taggedView => exact .rope fun _ _ => .onStore Rope.touches_taggedView session
  | toSevenBit => exact .rope fun _ _ => .onStore Rope.touches_toSevenBit session
  | toSevenBit? => exact .rope fun _ _ => .careful Rope.touches_toSevenBit?
  | toBinary => exact .rope fun _ _ => .onStore Rope.touches_toBinary session
  | toBinary? => exact .rope fun _ _ => .careful Rope.touches_toBinary?
  | resolve => exact .rope fun _ _ => .onStore Rope.touches_resolve session
  | rebalance name policy =>
    refine .rope fun rope hget => .onStore (Rope.touches_rebalance ?_) session
    exact fun piece hmem hloose => ⟨rope, piece, hget, hmem, hloose, rfl⟩
  | build name => exact absurd rfl (hbuild name)

theorem touches_insertNamed (names : List String) (ropes : RopeSet) (session : Session)
    (hmarks : ∀ name ∈ names, ∀ id, session.RootOf name id → marks id) :
    Touches marks (names.foldlM SessionM.insertNamed ropes) session := by
  induction names generalizing ropes session with
  | nil => exact .pure ropes
  | cons name names ih =>
    rw [List.foldlM_cons]
    have hname := hmarks name (List.mem_cons_self ..)
    have hinsert : Touches marks (SessionM.insertNamed ropes name) session := by
      refine .rope fun rope hget => .onStore (Rope.touches_insert ?_ ropes) session
      exact hname rope.id ⟨rope, hget, rfl⟩
    refine hinsert.bind fun ropes' session' hrun => ih ropes' session' fun other hmem => ?_
    -- Putting a rope into a set gives no name another rope.
    have hropes : session'.ropes = session.ropes := by
      unfold SessionM.insertNamed at hrun
      rw [SessionM.run_bind, SessionM.run_rope] at hrun
      cases hget : session.ropes.get? name <;> rw [hget] at hrun
      · cases hrun
      · exact (SessionM.exists_of_onStore hrun).2
    unfold Session.RootOf
    rw [hropes]
    exact hmarks other (List.mem_cons_of_mem _ hmem)

theorem Query.touches_perform (query : Query) (session : Session) :
    Touches (query.Marks session) query.perform session := by
  cases query with
  | rope => exact .rope fun _ _ => .pure _
  | flatten => exact .rope fun rope hget => .answer (Rope.touches_flatten ⟨rope, hget, rfl⟩) _
  | byteAt => exact .rope fun _ _ => .answer Rope.touches_byteAt _
  | byte? => exact .rope fun _ _ => .answer Rope.touches_byte? _
  | allBytes => exact .rope fun _ _ => .answer Rope.touches_allBytes _
  | chunks => exact .rope fun _ _ => .answer Rope.touches_chunks _
  | copyRange =>
    exact .rope fun _ _ => (Touches.careful Rope.touches_copyRange).bind fun _ _ _ => .pure _
  | lossyText =>
    exact .rope fun rope hget => .answer (Rope.touches_toLossyText ⟨rope, hget, rfl⟩) _
  | equal => exact .rope fun _ _ => .rope fun _ _ => .answer Rope.touches_equal _
  | sameDigest =>
    refine .rope fun l hl => .rope fun r hr => ?_
    refine (Touches.onStore (Rope.touches_digest (.inl ⟨l, hl, rfl⟩)) session).bind
      fun _ session' _ => ?_
    exact .answer (Rope.touches_digest (.inr ⟨r, hr, rfl⟩)) _
  | sameNode => exact .rope fun _ _ => .rope fun _ _ => .pure _
  | countDistinct names =>
    refine (touches_insertNamed names .empty session ?_).bind fun _ _ _ => .pure _
    exact fun name hmem id hroot => ⟨name, hmem, hroot⟩
  | materialized => exact Touches.bind (.refl _) fun _ _ _ => .pure _
  | builder => exact .builder fun builder => .builderReply builder

/-! ## Runs -/

/-- A read touches the node that is read. -/
theorem Warming.touches_read {rope : Rope} (hrope : marks rope.id) (warming : Warming) :
    RopeM.Touches marks (warming.read rope) := by
  cases warming with
  | flatten => exact (Rope.touches_flatten hrope).bind fun _ => .pure _
  | digest => exact (Rope.touches_digest hrope).bind fun _ => .pure _
  | lossyText => exact (Rope.touches_toLossyText hrope).bind fun _ => .pure _

namespace Session

variable {rope node : Rope}

theorem spares_of_touches {command : Command} (h : Touches marks command.perform session) :
    session.store.Spares marks (session.perform command).2.2.store := by
  unfold Touches at h
  unfold Session.perform
  -- Events that are handed out with the answer leave the cells as they are.
  split at h
  next hrun =>
    rw [hrun]
    exact ⟨h.size, h.bytes⟩
  next hrun =>
    rw [hrun]
    exact ⟨h.size, h.bytes⟩

/-- A command changes no buffers but those of the nodes that it may mark. -/
theorem Holds.spares {command : Command} (h : session.Holds may c)
    (hmay : ∀ deed ∈ command.deeds, may deed) :
    session.store.Spares (command.Marks session) (session.perform command).2.2.store := by
  obtain ⟨c', hle, hholds⟩ := h.perform hmay
  have hany : session.store.Spares (fun _ => True) (session.perform command).2.2.store := by
    rw [h.store, hholds.store]
    exact ⟨hle.size, fun _ _ hmarks => absurd trivial hmarks⟩
  cases command with
  | make recipe target? =>
    by_cases hbuild : ∃ name, recipe = .build name
    · obtain ⟨name, rfl⟩ := hbuild
      exact hany
    · apply spares_of_touches
      have hnot := fun name heq => hbuild ⟨name, heq⟩
      refine (recipe.touches_perform session hnot).bind fun made session' _ => ?_
      cases target? with
      | none => exact .pure _
      | some target => exact Touches.bind (.refl _) fun _ _ _ => .pure _
  | ask query => exact spares_of_touches (query.touches_perform session)
  | drop name => exact spares_of_touches (.refl _)
  | newBuilder name encoding config => exact spares_of_touches (.refl _)
  | pushRope | pushBytes => exact hany
  | copyBuilder name target =>
    refine spares_of_touches (.builder fun builder => ?_)
    exact Touches.bind (.refl _) fun _ _ _ => .builderReply builder

theorem Holds.warm (h : session.Holds may c) (hlive : c.live node) (warming : Warming) :
    ∃ c', c ≤ c' ∧ Holds may c' (session.warm node warming) := by
  have hwf := warming.wf_read hlive
  unfold RopeM.WF at hwf
  unfold Session.warm
  rw [h.store]
  split at hwf
  next hrun =>
    obtain ⟨c', rfl, hle, -⟩ := hwf
    exact ⟨c', hle, hrun ▸ h.mono hle⟩
  next hrun =>
    obtain ⟨c', rfl, hle, -⟩ := hwf
    exact ⟨c', hle, hrun ▸ h.mono hle⟩

theorem spares_warm (session : Session) (node : Rope) (warming : Warming) :
    session.store.Spares (· = node.id) (session.warm node warming).store := by
  have htouches : RopeM.Touches (· = node.id) (warming.read node) :=
    Warming.touches_read (by rfl) warming
  have htouches := htouches session.store
  unfold Session.warm
  split at htouches
  next hrun => rwa [hrun]
  next hrun => rwa [hrun]

/-- A session goes on: commands that need no other deeds, names for children of ropes, and reads of
nodes under ropes that it keeps, one after another. The nodes in `marks` are those that one of the
steps may let remember their content. -/
inductive GoesOn (may : Deed → Prop) (session : Session) : (NodeId → Prop) → Session → Prop
  | refl : GoesOn may session (fun _ => False) session
  | perform {marks : NodeId → Prop} {session' : Session} {command : Command} :
    GoesOn may session marks session' → (∀ deed ∈ command.deeds, may deed) →
    GoesOn may session (fun id => marks id ∨ command.Marks session' id)
      (session'.perform command).2.2
  | reveal {marks : NodeId → Prop} {session' : Session} {name target : String}
    {rope child : Rope} : GoesOn may session marks session' →
    session'.ropes.get? name = some rope → child ∈ rope.children →
    GoesOn may session marks { session' with ropes := session'.ropes.set target child }
  | warm {marks : NodeId → Prop} {session' : Session} {rope node : Rope} (warming : Warming) :
    GoesOn may session marks session' → session'.Keeps rope → node.Within rope →
    GoesOn may session (fun id => marks id ∨ id = node.id) (session'.warm node warming)

namespace GoesOn

/-- The census of a session goes on with it. -/
theorem holds (h : session.GoesOn may marks session') (hholds : session.Holds may c) :
    ∃ c', c ≤ c' ∧ session'.Holds may c' := by
  induction h with
  | refl => exact ⟨c, c.le_refl, hholds⟩
  | perform _ hmay ih =>
    obtain ⟨c', hle, hholds'⟩ := ih
    obtain ⟨c'', hle', hholds''⟩ := hholds'.perform hmay
    exact ⟨c'', Census.le_trans hle hle', hholds''⟩
  | reveal _ hget hchild ih =>
    obtain ⟨c', hle, hholds'⟩ := ih
    exact ⟨c', hle, hholds'.reveal hget hchild _⟩
  | warm warming _ hkeeps hn ih =>
    obtain ⟨c', hle, hholds'⟩ := ih
    have hlive := c'.live_of_within (hholds'.live_of_keeps hkeeps) hn
    obtain ⟨c'', hle', hholds''⟩ := hholds'.warm hlive warming
    exact ⟨c'', Census.le_trans hle hle', hholds''⟩

/-- The nodes that no step may mark have the buffers that they had. -/
theorem spares (h : session.GoesOn may marks session') (hholds : session.Holds may c) :
    session.store.Spares marks session'.store := by
  induction h with
  | refl => exact .refl _
  | perform h hmay ih =>
    obtain ⟨c', -, hholds'⟩ := h.holds hholds
    exact (ih.mono fun _ => .inl).trans ((hholds'.spares hmay).mono fun _ => .inr)
  | reveal _ _ _ ih => exact ih
  | warm warming _ _ _ ih =>
    exact (ih.mono fun _ => .inl).trans ((spares_warm _ _ warming).mono fun _ => .inr)

end GoesOn

end Session

end ByteRope
