import ByteRope.Proofs.Rope.Heights
import ByteRope.Proofs.Session.Reachable

/-!
# The structure of nodes

Lengths, depths and kinds stand in every node beside the tree that they speak of. In every reachable
session, and for every rope that a command makes, they agree with the tree and with what the store
remembers (`Session.Reachable.consistent`): what the makers of nodes check of one node and its
children adds up, by induction over the tree, to its height and to the length of its content.
-/

namespace ByteRope

variable {may : Deed → Prop} {c : Census} {session : Session} {rope node made : Rope}
  {store : Store}

/-! ## Nodes -/

/-- What a node states agrees with its children. A leaf has a buffer, and is of the kind for its
range, which is known. -/
def Rope.Fits (store : Store) : Rope → Prop
  | rope@(leaf _ kind ..) =>
    rope.depth = 0 ∧ (store.raw? rope).isSome = true ∧
      LeafKind.ofRange? rope.range = some kind ∧ rope.range ≠ .unknown
  | join _ _ byteLen depth _ left right =>
    byteLen = left.byteLen + right.byteLen ∧ depth = max left.depth right.depth + 1
  | view _ _ byteLen depth offset child =>
    offset + byteLen ≤ child.byteLen ∧ depth = child.depth + 1

/-- What a node states of its tree is true, and the store has nothing else of it. -/
structure Rope.Consistent (store : Store) (node : Rope) : Prop where
  byteLen_eq : node.byteLen = node.content.length
  depth_eq : node.depth = node.height
  fits : node.Fits store
  raw_size : ∀ bytes, store.raw? node = some bytes → bytes.size = node.byteLen
  charLen_eq : node.range = .asciiOnly → node.charLen = node.byteLen

theorem Rope.WF.fits (h : rope.WF) (store : Store) : rope.Fits store := by
  cases h with
  | @leaf _ kind => cases kind <;> exact ⟨rfl, rfl, rfl, nofun⟩
  | join _ _ hlen _ hdepth => exact ⟨hlen, hdepth⟩
  | view _ hrange hdepth => exact ⟨hrange, hdepth⟩

theorem Rope.consistent_of_live (hlive : c.live node) : node.Consistent c.store where
  byteLen_eq := (c.wf hlive).length_content.symm
  depth_eq := (c.wf hlive).depth_eq_height
  fits := (c.wf hlive).fits _
  raw_size _ hraw := (c.wf hlive).size_of_heldBy (c.raw hlive hraw)
  charLen_eq := (c.wf hlive).charLen_eq

/-! ## Sessions -/

/-- A rope that the session keeps: one with a name, or a tree or the piece held back of one of its
builders. -/
inductive Session.Keeps (session : Session) : Rope → Prop
  | named {name : String} {rope : Rope} : session.ropes.get? name = some rope → Keeps session rope
  | tree {name : String} {builder : Builder} {tree : Builder.Tree} :
    session.builders.get? name = some builder → tree ∈ builder.forest → Keeps session tree.rope
  | tail {name : String} {builder : Builder} {rope : Rope} :
    session.builders.get? name = some builder → builder.tail? = some rope → Keeps session rope

theorem Session.Holds.live_of_keeps (h : session.Holds may c) (hkeeps : session.Keeps rope) :
    c.live rope := by
  cases hkeeps with
  | named hget => exact (h.ropes hget).1
  | tree hget hmem => exact ((h.builders hget).ready.forest _ hmem).live
  | tail hget htail => exact ((h.builders hget).ready.tail _ htail).live

/-- A node under a rope that the session keeps. -/
def Session.Contains (session : Session) (node : Rope) : Prop :=
  ∃ rope, session.Keeps rope ∧ node.Within rope

theorem Session.Holds.made_of_keeps (h : session.Holds may c) (hkeeps : session.Keeps rope) :
    rope.Made (Deed.Building may) := by
  cases hkeeps with
  | named hget => exact (h.ropes hget).2.building
  | tree hget hmem => exact ((h.builders hget).ready.forest _ hmem).holds
  | tail hget htail => exact ((h.builders hget).ready.tail _ htail).holds

theorem Session.Holds.of_contains (h : session.Holds may c) (hnode : session.Contains node) :
    c.live node ∧ node.Made (Deed.Building may) := by
  obtain ⟨rope, hkeeps, hn⟩ := hnode
  exact ⟨c.live_of_within (h.live_of_keeps hkeeps) hn, (h.made_of_keeps hkeeps).of_within hn⟩

/-- The rope that a command answers with is in use after it. -/
theorem Recipe.live_perform (recipe : Recipe) (target? : Option String)
    (hmay : ∀ deed ∈ recipe.deeds, may deed) (hholds : session.Holds may c)
    (hreply : (session.perform (.make recipe target?)).1 = .ok (.rope made)) :
    ∃ c' : Census, c'.live made ∧
      c'.store = (session.perform (.make recipe target?)).2.2.store := by
  have hcommand : SessionM.WF may c (Command.make recipe target?).perform
      fun reply c' => ∃ rope, reply = .rope rope ∧ c'.live rope := by
    refine (recipe.wf_perform hmay).bind fun rope c₁ _ hrope => ?_
    cases target? with
    | none => exact SessionM.WF.pure ⟨rope, rfl, hrope.1⟩
    | some target =>
      exact (SessionM.WF.keepRope hrope.1 hrope.2).bind fun _ _ hle _ =>
        SessionM.WF.pure ⟨rope, rfl, hle.live hrope.1⟩
  have hrun := hcommand session hholds
  unfold Session.perform at hreply ⊢
  split at hrun
  next reply after hresult =>
    rw [hresult] at hreply ⊢
    obtain ⟨c', -, hholds', rope, rfl, hlive⟩ := hrun
    cases hreply
    refine ⟨c'.quiet, hlive, ?_⟩
    change { c'.store with events := #[] } = { after.store with events := #[] }
    rw [hholds'.store]
  next hresult =>
    rw [hresult] at hreply
    cases hreply

/-- In every reachable session, what the nodes under the ropes that it keeps state of themselves
agrees with their trees and with the store, and the same is true of the nodes under every rope that
the next command makes, whether it is kept or not. -/
theorem Session.Reachable.consistent (h : session.Reachable may) :
    (∀ rope : Rope, session.Keeps rope →
        ∀ node : Rope, node.Within rope → node.Consistent session.store) ∧
      ∀ (recipe : Recipe) (target? : Option String), (∀ deed ∈ recipe.deeds, may deed) →
        ∀ made : Rope, (session.perform (.make recipe target?)).1 = .ok (.rope made) →
          ∀ node : Rope, node.Within made →
            node.Consistent (session.perform (.make recipe target?)).2.2.store := by
  obtain ⟨c, hholds⟩ := h.holds
  constructor
  · intro rope hkeeps node hn
    rw [hholds.store]
    exact Rope.consistent_of_live (c.live_of_within (hholds.live_of_keeps hkeeps) hn)
  · intro recipe target? hmay made hreply node hn
    obtain ⟨c', hlive, hstore⟩ := recipe.live_perform target? hmay hholds hreply
    rw [← hstore]
    exact Rope.consistent_of_live (c'.live_of_within hlive hn)

/-- A view with tags of the caller's choice over a join that remembers its content: its depth is its
height, and what can be seen of its tree agrees. -/
theorem consistent_view :
    ∃ (session : Session) (view made : Rope), (session.Reachable fun _ => True) ∧
      session.ropes.get? "v" = some view ∧ view.Consistent session.store ∧ view.depth = 2 ∧
      (session.perform (.make (.concat "v" "v" .standard) none)).1 = .ok (.rope made) ∧
      made.depth = 3 ∧ made.Consistent
        (session.perform (.make (.concat "v" "v" .standard) none)).2.2.store := by
  let session : Session := Session.empty.performAll [
    .make (.text "ab") (some "a"), .make (.concat "a" "a" .standard) (some "r"),
    .ask (.flatten "r"), .make (.taggedView "r" ⟨.utf8, .unknown, 7⟩ 1 2) (some "v")]
  have h : session.Reachable fun _ => True :=
    Session.Reachable.empty.performAll fun _ _ _ _ => trivial
  have hview : (session.ropes.get? "v").map Rope.depth = some 2 := by decide +kernel
  obtain ⟨view, hget, hdepth⟩ := Option.map_eq_some_iff.mp hview
  have hmade : (session.perform (.make (.concat "v" "v" .standard) none)).1.map (fun
      | .rope made => some made.depth
      | _ => none) = .ok (some 3) := by
    decide +kernel
  obtain ⟨hkept, hmakes⟩ := h.consistent
  cases hreply : (session.perform (.make (.concat "v" "v" .standard) none)).1 with
  | error failure =>
    rw [hreply] at hmade
    cases hmade
  | ok reply =>
    rw [hreply] at hmade
    cases reply with
    | rope made =>
      refine ⟨session, view, made, h, hget, hkept _ (.named hget) _ .refl, hdepth, hreply,
        Option.some.inj (Except.ok.inj hmade), ?_⟩
      exact hmakes _ _ (fun _ _ => trivial) made hreply _ .refl
    | _ => cases hmade

end ByteRope
