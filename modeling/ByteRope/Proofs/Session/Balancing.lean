import ByteRope.Proofs.Rope.Characters
import ByteRope.Proofs.Session.Reachable

/-!
# Rebalancing in sessions

When rebalancing a rope, pushing it into a builder and building come to an end, in sessions where
no caller says tags or numbers of characters and nothing was rebuilt (`Session.Balances`). An
ASCII-only rope cannot be rebuilt if a piece of more than one octet is under UTF-16LE: the new root
is made with the characters of the pieces first.
-/

namespace ByteRope

variable {may : Deed → Prop} {c : Census} {session : Session} {rope : Rope}

/-- The deeds that take no tags and no numbers from a caller and rebuild nothing. -/
def Deed.Plain : Deed → Prop
  | scan _ | claim _ | concat | slice | transition | resolve => True
  | count _ | rebuild | tag => False

/-- The exact conditions under which rebalancing and building come to an end. -/
structure Session.Balances (session : Session) : Prop where
  rebalance : ∀ name rope policy, session.ropes.get? name = some rope →
    ((rope.rebalance policy).Succeeds session.store ↔ (rope.isJoin = true → rope.Regroupable))
  faults : ∀ name rope policy fault store, session.ropes.get? name = some rope →
    rope.rebalance policy session.store = .error fault store →
    fault = .capacityOverflow ∨ fault = .asciiLengths rope.byteLen rope.pairedCharLen
  pieces : ∀ name rope, session.ropes.get? name = some rope →
    (rope.Rebuildable ↔ rope.Regroupable)
  tails : ∀ name builder tail, session.builders.get? name = some builder →
    builder.tail? = some tail → tail.isJoin = true → (tail.Rebuildable ↔ tail.Regroupable)
  push : ∀ name builder other piece, session.builders.get? name = some builder →
    session.ropes.get? other = some piece → builder.len + piece.byteLen ≤ Size.max →
    ((builder.push piece).Succeeds session.store ↔
      (piece.byteLen = 0 ∨ builder.Pushable piece))
  build : ∀ name builder, session.builders.get? name = some builder →
    (builder.build.Succeeds session.store ↔ builder.Flushable)

/-! ## Ropes and builders -/

theorem Rope.Made.pairedCharLen_le (h : rope.Made may) (htag : ¬may .tag)
    (hcount : ∀ encoding, ¬may (.count encoding)) : rope.pairedCharLen ≤ Size.max :=
  Nat.le_trans (Rope.pairedCharLen_le h.wf fun _ hmem =>
    h.forall_within (Rope.passes_charLen_le htag hcount) (Rope.mem_parts hmem).1) h.wf.byteLen_le

theorem Rope.Made.rebuildable_iff_regroupable (h : rope.Made may) (htag : ¬may .tag)
    (hcount : ∀ encoding, ¬may (.count encoding)) (hrebuild : ¬may .rebuild) :
    rope.Rebuildable ↔ rope.Regroupable := by
  apply Rope.rebuildable_iff_regroupable h.wf (h.induct (Rope.passes_soundTags htag))
  intro piece hmem
  apply h.forall_within (Rope.passes_charLen_eq htag hcount hrebuild) (Rope.mem_parts hmem).1
  exact Rope.isJoin_of_mem_parts hmem

theorem Rope.wf_rebalance_of_live (hlive : c.live rope) (policy : BalancePolicy) :
    RopeM.WF c (rope.rebalance policy) (fun _ _ => rope.isJoin = true → rope.Rebuildable)
      (fun fault => rope.isJoin = true ∧ rope.Unbuildable fault) :=
  (Rope.wf_regroup_any hlive policy).mono (fun _ _ _ hq => hq.2.rebuildable)
    fun _ hfault => ⟨hfault.1, hfault.2.1⟩

theorem Rope.Made.rebalance_succeeds_iff (h : rope.Made may) (hlive : c.live rope)
    (htag : ¬may .tag) (hcount : ∀ encoding, ¬may (.count encoding)) (policy : BalancePolicy) :
    (rope.rebalance policy).Succeeds c.store ↔ (rope.isJoin = true → rope.Rebuildable) := by
  refine (Rope.wf_rebalance_of_live hlive policy).succeeds_iff (fun _ _ hr => hr)
    fun fault herror hr => ?_
  exact herror.2.not_rebuildable (h.pairedCharLen_le htag hcount) (hr herror.1)

theorem Rope.Made.fault_of_rebalance (h : rope.Made may) (hlive : c.live rope)
    (htag : ¬may .tag) (hcount : ∀ encoding, ¬may (.count encoding)) {policy : BalancePolicy}
    {fault : Fault} {store : Store} (hrun : rope.rebalance policy c.store = .error fault store) :
    fault = .capacityOverflow ∨ fault = .asciiLengths rope.byteLen rope.pairedCharLen := by
  obtain ⟨-, hfault⟩ := (Rope.wf_rebalance_of_live hlive policy).of_fault hrun
  cases hfault with
  | long _ _ hlong => exact .inl hlong.1
  | chars hover => exact absurd (h.pairedCharLen_le htag hcount) (Nat.not_le_of_lt hover.2)
  | ascii _ hmismatch => exact .inr hmismatch.1

theorem Builder.Sound.push_succeeds_iff {builder : Builder} {piece : Rope}
    (h : builder.Sound may c) (hlive : c.live piece) (hmade : piece.Made may)
    (hsparing : Sparing (Rope.Made (Deed.Building may)))
    (hmax : builder.len + piece.byteLen ≤ Size.max) :
    (builder.push piece).Succeeds c.store ↔ (piece.byteLen = 0 ∨ builder.Pushable piece) := by
  refine (wf_push Rope.Made.family_building h.ready hlive hmade.building).succeeds_iff
    (fun _ _ hq => hq.2.2.2) fun _ herror => ?_
  obtain ⟨hne, hpushable⟩ := herror hsparing hmax
  intro hcases
  rcases hcases with hzero | hp
  · exact hne hzero
  · exact hpushable hp

theorem Builder.Kept.build_succeeds_iff {builder : Builder} (h : builder.Kept may c)
    (hsparing : Sparing (Rope.Made (Deed.Building may))) :
    builder.build.Succeeds c.store ↔ builder.Flushable :=
  (wf_build Rope.Made.family_building h.ready fun _ hscanned =>
    .scanned (.inl h.encoding) hscanned).succeeds_iff (fun _ _ hq => hq.2.2.2)
    fun _ herror => herror hsparing h.len

/-! ## Sessions -/

/-- No rope that was made without numbers from a caller has more characters than octets. -/
theorem Deed.sparing_building : Builder.Sparing (Rope.Made (Deed.Building Deed.Plain)) := by
  have htag : ¬Deed.Building Deed.Plain .tag := by simp [Deed.Building, Deed.Plain]
  have hcount (encoding : Encoding) : ¬Deed.Building Deed.Plain (.count encoding) := by
    simp [Deed.Building, Deed.Plain]
  exact fun rope h => h.induct (Rope.passes_charLen_le htag hcount)

/-- A letter, two octets under UTF-16LE and two letters more are five ASCII octets, but the pieces
have only four characters. -/
theorem Rope.not_regroupable_of_mixed {a u r₁ r₂ r₃ r : Rope} {policy : BalancePolicy}
    (ha : Scanned .utf8 #[97] a) (hu : Scanned .utf16le #[98, 98] u)
    (h₁ : Concatenated a u policy r₁) (h₂ : Concatenated r₁ a policy r₂)
    (h₃ : Concatenated r₂ a policy r₃) (h : Resolved r₃ r) :
    r.isJoin = true ∧ ¬r.Regroupable := by
  cases ha
  cases hu
  cases h₁.joined nofun nofun
  cases h₂.joined nofun nofun
  cases h₃.joined nofun nofun
  have hascii : Bytes.isAscii #[97, 98, 98, 97, 97] = true := Bytes.isAscii_iff.mpr (by simp)
  have hscan : Encoding.scan .utf8 #[97, 98, 98, 97, 97] = ⟨.asciiOnly, 5⟩ :=
    Encoding.scan_of_isAscii rfl hascii
  cases h with
  | good hgood => cases hgood
  | right hright => cases hscan.symm.trans hright
  | retagged _ hretagged =>
    have hrange : r.range = .asciiOnly :=
      hretagged.range_eq.trans (congrArg ScanResult.range hscan)
    cases hretagged with
    | join =>
      refine ⟨rfl, fun hr => ?_⟩
      have hgain : 2 < 3 := Nat.lt_succ_self 2
      cases hr.narrow hgain hrange _ (List.mem_cons_of_mem _ (List.mem_cons_self ..)) rfl

theorem Session.Reachable.append (h : session.Reachable Deed.Plain) {name other : String}
    {left right : Rope} (hl : session.ropes.get? name = some left)
    (hr : session.ropes.get? other = some right)
    (hmax : left.byteLen + right.byteLen ≤ Size.max) (policy : BalancePolicy) (target : String) :
    ∃ (session' : Session) (rope : Rope), session'.Reachable Deed.Plain ∧
      session'.ropes = session.ropes.set target rope ∧
      Rope.Concatenated left right policy rope := by
  obtain ⟨c, hholds⟩ := h.holds
  have hchars {name : String} {rope : Rope} (hget : session.ropes.get? name = some rope) :=
    (hholds.ropes hget).2.induct (Rope.passes_charLen_le id fun _ => id)
  exact h.concat trivial hl hr hmax (Nat.le_trans (Nat.add_le_add (hchars hl) (hchars hr)) hmax)
    policy target

/-- In sessions where no caller says tags or numbers, what can be in the way of rebalancing, pushing
and building is a buffer that would be too long, or an ASCII-only root over UTF-16LE pieces. -/
theorem Session.Reachable.balances (h : session.Reachable Deed.Plain) : session.Balances := by
  obtain ⟨c, hholds⟩ := h.holds
  have hcount (encoding : Encoding) : ¬Deed.Plain (.count encoding) := id
  constructor
  case rebalance =>
    intro name rope policy hget
    obtain ⟨hlive, hmade⟩ := hholds.ropes hget
    rw [← hmade.rebuildable_iff_regroupable id hcount id, hholds.store]
    exact hmade.rebalance_succeeds_iff hlive id hcount policy
  case faults =>
    intro name rope policy fault store hget hrun
    obtain ⟨hlive, hmade⟩ := hholds.ropes hget
    exact hmade.fault_of_rebalance hlive id hcount (hholds.store ▸ hrun)
  case pieces =>
    exact fun name rope hget => (hholds.ropes hget).2.rebuildable_iff_regroupable id hcount id
  case tails =>
    intro name builder tail hbuilder htail hjoin
    have hsound := (hholds.builders hbuilder).toSound
    obtain ⟨pieces, hpieces, hgrown⟩ := hsound.grown
    rcases hgrown.tail htail with hmem | hdepth
    · exact (hpieces tail hmem).rebuildable_iff_regroupable id hcount id
    · exact absurd hdepth ((c.wf (hsound.ready.tail tail htail).live).depth_ne_zero hjoin)
  case push =>
    intro name builder other piece hbuilder hget hmax
    obtain ⟨hlive, hmade⟩ := hholds.ropes hget
    have hsound := (hholds.builders hbuilder).toSound
    exact hholds.store ▸ hsound.push_succeeds_iff hlive hmade Deed.sparing_building hmax
  case build =>
    intro name builder hbuilder
    exact hholds.store ▸ (hholds.builders hbuilder).build_succeeds_iff Deed.sparing_building

theorem balances_mixed :
    ∃ (session : Session) (rope : Rope), session.Reachable Deed.Plain ∧
      session.ropes.get? "r" = some rope ∧ session.Balances ∧
      ¬(rope.rebalance .standard).Succeeds session.store := by
  have hone : (#[97] : Bytes).size ≤ Size.maxBuffer := by decide
  have htwo : (#[98, 98] : Bytes).size ≤ Size.maxBuffer := by decide
  have hempty : Session.empty.Reachable Deed.Plain := .empty
  obtain ⟨s, a, h, hs, ha⟩ := hempty.scan .utf8 trivial hone "a"
  obtain ⟨s₀, u, h₀, hs₀, hu⟩ := h.scan .utf16le trivial htwo "u"
  have hlen : a.byteLen = 1 := by cases ha; rfl
  have hlen' : u.byteLen = 2 := by cases hu; rfl
  have ha₀ : s₀.ropes.get? "a" = some a := by
    rw [hs₀, Registers.get?_set_of_ne _ (by decide), hs, Registers.get?_set_self]
  have hu₀ : s₀.ropes.get? "u" = some u := by rw [hs₀, Registers.get?_set_self]
  obtain ⟨s₁, r₁, h₁, hs₁, hr₁⟩ :=
    h₀.append ha₀ hu₀ (by rw [hlen, hlen']; decide) .standard "r"
  have ha₁ : s₁.ropes.get? "a" = some a := by
    rw [hs₁, Registers.get?_set_of_ne _ (by decide), ha₀]
  have hget₁ : s₁.ropes.get? "r" = some r₁ := by rw [hs₁, Registers.get?_set_self]
  obtain ⟨s₂, r₂, h₂, hs₂, hr₂⟩ :=
    h₁.append hget₁ ha₁ (by rw [hr₁.byteLen_eq, hlen, hlen']; decide) .standard "r"
  have ha₂ : s₂.ropes.get? "a" = some a := by
    rw [hs₂, Registers.get?_set_of_ne _ (by decide), ha₁]
  have hget₂ : s₂.ropes.get? "r" = some r₂ := by rw [hs₂, Registers.get?_set_self]
  obtain ⟨s₃, r₃, h₃, hs₃, hr₃⟩ := h₂.append hget₂ ha₂
    (by rw [hr₂.byteLen_eq, hr₁.byteLen_eq, hlen, hlen']; decide) .standard "r"
  have hget₃ : s₃.ropes.get? "r" = some r₃ := by rw [hs₃, Registers.get?_set_self]
  obtain ⟨s₄, r, h₄, hs₄, hr⟩ := h₃.resolve trivial hget₃ "r"
  have hget : s₄.ropes.get? "r" = some r := by rw [hs₄, Registers.get?_set_self]
  obtain ⟨hjoin, hnot⟩ := Rope.not_regroupable_of_mixed ha hu hr₁ hr₂ hr₃ hr
  refine ⟨s₄, r, h₄, hget, h₄.balances, fun hsucceeds => ?_⟩
  exact hnot ((h₄.balances.rebalance "r" r .standard hget).mp hsucceeds hjoin)

end ByteRope
