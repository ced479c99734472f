import ByteRope.Proofs.Rope.Joining
import ByteRope.Proofs.Rope.Rebalancing
import ByteRope.Proofs.Rope.Slicing

/-!
# How ropes are made

`Rope.Made may` holds of the ropes that can be made by the deeds that `may` allows. It says how a
rope came about and nothing of stores, so what holds of all ropes of a kind is proved by induction
over their making. The nodes under a rope were made the same way (`Rope.Made.of_within`).
-/

namespace ByteRope

/-- A way for a node to come about. -/
inductive Deed where
  /-- A leaf with the tags that a scan finds. -/
  | scan (encoding : Encoding)
  /-- A leaf of a good range that the caller says and the octets bear out. -/
  | claim (encoding : Encoding)
  /-- A broken leaf with a number of characters that the caller says. -/
  | count (encoding : Encoding)
  /-- One rope after another. -/
  | concat
  /-- A stretch of a rope. -/
  | slice
  /-- The octets of a rope under another encoding. -/
  | transition
  /-- A rope with the tags that a scan finds. -/
  | resolve
  /-- A rope of the same content and tags: a leaf, or a new root over other ropes. -/
  | rebuild
  /-- A join or a view with tags that the caller says. -/
  | tag
  deriving DecidableEq

namespace Rope

/-- The ropes that can be made by these deeds. -/
inductive Made (may : Deed → Prop) : Rope → Prop
  | scanned {encoding : Encoding} {bytes : Bytes} {rope : Rope} : may (.scan encoding) →
    Scanned encoding bytes rope → Made may rope
  | claimed {encoding : Encoding} {bytes : Bytes} {rope : Rope} : may (.claim encoding) →
    Claimed encoding bytes rope → Made may rope
  | counted {encoding : Encoding} {bytes : Bytes} {rope : Rope} : may (.count encoding) →
    Counted encoding bytes rope → Made may rope
  | concatenated {left right rope : Rope} {policy : BalancePolicy} : may .concat →
    left.Made may → right.Made may → Concatenated left right policy rope → Made may rope
  | sliced {rope slice : Rope} {offset len : Nat} : may .slice → rope.Made may →
    offset + len ≤ rope.byteLen → Sliced rope offset len slice → Made may slice
  | transitioned {rope rope' : Rope} : may .transition → rope.Made may →
    Transitioned rope rope' → Made may rope'
  | resolved {rope rope' : Rope} : may .resolve → rope.Made may → Resolved rope rope' →
    Made may rope'
  | leafed {rope leaf : Rope} : may .rebuild → rope.Made may → Leafed rope leaf →
    Made may leaf
  | rebuilt {rope left right root : Rope} {balanced : Bool} : may .rebuild → rope.Made may →
    left.Made may → right.Made may → Rebuilt rope left right balanced root → Made may root
  | joined {left right rope : Rope} {encoding : Encoding} {range : CodeRange} {balanced : Bool} :
    may .tag → left.Made may → right.Made may → Joined left right encoding range balanced rope →
    Made may rope
  | shown {child rope : Rope} {tags : Tags} {offset len : Nat} : may .tag → child.Made may →
    Shown child tags offset len rope → Made may rope

namespace Made

variable {may may' : Deed → Prop} {rope child node : Rope}

theorem mono (hmay : ∀ deed, may deed → may' deed) (h : rope.Made may) : rope.Made may' := by
  induction h with
  | scanned h h' => exact .scanned (hmay _ h) h'
  | claimed h h' => exact .claimed (hmay _ h) h'
  | counted h h' => exact .counted (hmay _ h) h'
  | concatenated h _ _ h' ihl ihr => exact .concatenated (hmay _ h) ihl ihr h'
  | sliced h _ hr h' ih => exact .sliced (hmay _ h) ih hr h'
  | transitioned h _ h' ih => exact .transitioned (hmay _ h) ih h'
  | resolved h _ h' ih => exact .resolved (hmay _ h) ih h'
  | leafed h _ h' ih => exact .leafed (hmay _ h) ih h'
  | rebuilt h _ _ _ h' ih ihl ihr => exact .rebuilt (hmay _ h) ih ihl ihr h'
  | joined h _ _ h' ihl ihr => exact .joined (hmay _ h) ihl ihr h'
  | shown h _ h' ih => exact .shown (hmay _ h) ih h'

theorem wf (h : rope.Made may) : rope.WF := by
  induction h with
  | scanned _ h => exact h.wf
  | claimed _ h => exact h.wf
  | counted _ h => exact h.wf
  | concatenated _ _ _ h hl hr => exact h.wf hl hr
  | sliced _ _ _ h hrope => exact h.wf hrope
  | transitioned _ _ h hrope =>
    obtain ⟨_, hretagged⟩ := h.retagged
    exact hretagged.wf hrope
  | resolved _ _ h hrope =>
    rcases h.cases with rfl | ⟨_, hretagged⟩
    · exact hrope
    · exact hretagged.wf hrope
  | leafed _ _ h hrope => exact h.wf hrope
  | rebuilt _ _ _ _ h hrope hl hr => exact h.wf hrope hl hr
  | joined _ _ _ h hl hr => exact h.wf hl hr
  | shown _ _ h hchild => exact h.wf hchild

/-- `P` holds of every new node if it holds of the nodes that the new one is made of. -/
structure Passes (may : Deed → Prop) (P : Rope → Prop) : Prop where
  scanned : ∀ {encoding bytes rope}, may (.scan encoding) → Scanned encoding bytes rope → P rope
  claimed : ∀ {encoding bytes rope}, may (.claim encoding) → Claimed encoding bytes rope → P rope
  counted : ∀ {encoding bytes rope}, may (.count encoding) → Counted encoding bytes rope → P rope
  concatenated : ∀ {left right rope : Rope} {policy : BalancePolicy}, may .concat →
    left.Made may → right.Made may → P left → P right → left.byteLen ≠ 0 → right.byteLen ≠ 0 →
    Joined left right (joinedTags left right).1 (joinedTags left right).2
      (policy.isBalanced (max left.depth right.depth + 1) (left.byteLen + right.byteLen)) rope →
    P rope
  sliced : ∀ {rope child slice : Rope} {offset start len : Nat}, may .slice → rope.Made may →
    P rope → P child → offset + len ≤ rope.byteLen → len ≠ 0 → child.Within rope →
    child.stretch start len = rope.stretch offset len →
    Shown child (rope.stretchTags offset len) start len slice → P slice
  emptied : ∀ {rope slice : Rope}, may .slice → rope.Made may → P rope →
    Scanned rope.encoding #[] slice → P slice
  transitioned : ∀ {rope rope' : Rope}, may .transition → rope.Made may → P rope →
    Transitioned rope rope' → P rope'
  resolved : ∀ {rope rope' : Rope}, may .resolve → rope.Made may → P rope →
    rope.range.isGood = false →
    Retagged ⟨rope.encoding, rope.scanned.range, rope.scanned.charLen⟩ rope rope' → P rope'
  leafed : ∀ {rope leaf : Rope}, may .rebuild → rope.Made may → P rope →
    Leafed rope leaf → P leaf
  rebuilt : ∀ {rope left right root : Rope} {balanced : Bool}, may .rebuild → rope.Made may →
    left.Made may → right.Made may → P rope → P left → P right →
    Rebuilt rope left right balanced root → P root
  joined : ∀ {left right rope : Rope} {encoding range balanced}, may .tag → left.Made may →
    right.Made may → P left → P right → Joined left right encoding range balanced rope → P rope
  shown : ∀ {child rope : Rope} {tags offset len}, may .tag → child.Made may → P child →
    Shown child tags offset len rope → P rope

/-- What passes to new nodes holds of every node under a rope. -/
theorem forall_within {P : Rope → Prop} (hP : Passes may P) (h : rope.Made may)
    (hn : node.Within rope) : P node := by
  -- A new root needs nothing but its children.
  have root {rope node : Rope} (h : P rope) (hn : node.Within rope)
      (hc : ∀ child ∈ rope.children, ∀ {node : Rope}, node.Within child → P node) : P node := by
    rcases hn.cases with rfl | ⟨child, hchild, hn⟩
    · exact h
    · exact hc child hchild hn
  have two {left right : Rope} (hl : ∀ {node : Rope}, node.Within left → P node)
      (hr : ∀ {node : Rope}, node.Within right → P node) :
      ∀ child ∈ [left, right], ∀ {node : Rope}, node.Within child → P node := by
    rintro child (_ | ⟨_, _ | ⟨_, ⟨⟩⟩⟩)
    · exact hl
    · exact hr
  have one {child : Rope} (hc : ∀ {node : Rope}, node.Within child → P node) :
      ∀ child' ∈ [child], ∀ {node : Rope}, node.Within child' → P node := by
    rintro child' (_ | ⟨_, ⟨⟩⟩)
    exact hc
  have same {rope rope' : Rope} {tags : Tags} (h : Retagged tags rope rope')
      (ih : ∀ {node : Rope}, node.Within rope → P node) :
      ∀ child ∈ rope'.children, ∀ {node : Rope}, node.Within child → P node := by
    rw [h.children_eq]
    exact fun child hchild _ hn => ih (.child hchild hn)
  induction h generalizing node with
  | scanned hmay h => exact root (hP.scanned hmay h) hn (by rw [h.children_eq]; nofun)
  | claimed hmay h => exact root (hP.claimed hmay h) hn (by rw [h.children_eq]; nofun)
  | counted hmay h => exact root (hP.counted hmay h) hn (by rw [h.children_eq]; nofun)
  | concatenated hmay hl hr h ihl ihr =>
    cases h with
    | left => exact ihl hn
    | right => exact ihr hn
    | join hleft hright hjoined =>
      exact root (hP.concatenated hmay hl hr (ihl .refl) (ihr .refl) hleft hright hjoined) hn
        (hjoined.children_eq ▸ two ihl ihr)
  | sliced hmay hrope hrange h ih =>
    cases h with
    | whole => exact ih hn
    | empty _ hscanned =>
      exact root (hP.emptied hmay hrope (ih .refl) hscanned) hn
        (by rw [hscanned.children_eq]; nofun)
    | node hwithin => exact ih (hn.trans hwithin)
    | view hlen hwithin hshows hshown =>
      exact root (hP.sliced hmay hrope (ih .refl) (ih hwithin) hrange hlen hwithin hshows hshown) hn
        (hshown.children_eq ▸ one fun hn => ih (hn.trans hwithin))
  | transitioned hmay hrope h ih =>
    obtain ⟨_, hretagged⟩ := h.retagged
    exact root (hP.transitioned hmay hrope (ih .refl) h) hn (same hretagged ih)
  | resolved hmay hrope h ih =>
    cases h with
    | good | right => exact ih hn
    | retagged hgood hretagged =>
      exact root (hP.resolved hmay hrope (ih .refl) hgood hretagged) hn (same hretagged ih)
  | leafed hmay hrope h ih =>
    exact root (hP.leafed hmay hrope (ih .refl) h) hn (by rw [h.children_eq]; nofun)
  | rebuilt hmay hrope hl hr h ih ihl ihr =>
    exact root (hP.rebuilt hmay hrope hl hr (ih .refl) (ihl .refl) (ihr .refl) h) hn
      (h.children_eq ▸ two ihl ihr)
  | joined hmay hl hr h ihl ihr =>
    exact root (hP.joined hmay hl hr (ihl .refl) (ihr .refl) h) hn (h.children_eq ▸ two ihl ihr)
  | shown hmay hchild h ih =>
    exact root (hP.shown hmay hchild (ih .refl) h) hn (h.children_eq ▸ one ih)

/-- Every node under a rope was made by the same deeds. -/
theorem of_within (h : rope.Made may) (hn : node.Within rope) : node.Made may :=
  h.forall_within
    { scanned := .scanned
      claimed := .claimed
      counted := .counted
      concatenated := fun hmay hl hr _ _ hleft hright hjoined =>
        .concatenated hmay hl hr (.join hleft hright hjoined)
      sliced := fun hmay hrope _ _ hrange hlen hwithin hshows hshown =>
        .sliced hmay hrope hrange (.view hlen hwithin hshows hshown)
      emptied := fun {rope _} hmay hrope _ h =>
        .sliced hmay hrope (Nat.zero_le rope.byteLen) (.empty rfl h)
      transitioned := fun hmay hrope _ h => .transitioned hmay hrope h
      resolved := fun hmay hrope _ hgood h => .resolved hmay hrope (.retagged hgood h)
      leafed := fun hmay hrope _ h => .leafed hmay hrope h
      rebuilt := fun hmay hrope hl hr _ _ _ h => .rebuilt hmay hrope hl hr h
      joined := fun hmay hl hr _ _ h => .joined hmay hl hr h
      shown := fun hmay hchild _ h => .shown hmay hchild h }
    hn

/-- What passes to new nodes holds of every rope. -/
theorem induct {P : Rope → Prop} (hP : Passes may P) (h : rope.Made may) : P rope :=
  h.forall_within hP .refl

end Made

end Rope

end ByteRope
