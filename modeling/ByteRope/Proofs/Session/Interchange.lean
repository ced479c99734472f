import ByteRope.Proofs.Rope.Exchanging
import ByteRope.Proofs.Session.Identity

/-!
# Interchange

What operations make of equal ropes of a session, if no caller says tags or numbers of characters
(`Session.Interchanges`). Slicing, resolving and rebalancing make equal ropes of equal ropes.
Concatenation does so unless its choice of an encoding depends on the one thing in which equal ropes
may differ that it looks at: whether a rope is known to be ASCII only.
-/

namespace ByteRope

variable {may : Deed → Prop} {c : Census} {session : Session} {rope left right : Rope}

/-- The deeds that take no tags and no numbers of characters from a caller. -/
def Deed.Checked : Deed → Prop
  | scan _ | claim _ | concat | slice | transition | resolve | rebuild => True
  | count _ | tag => False

theorem Rope.Made.checked (h : rope.Made Deed.Checked) : rope.Checked :=
  ⟨h.induct (Rope.passes_soundTags nofun), h.induct (Rope.passes_charLen_le nofun nofun)⟩

namespace Session

/-- What operations make of one of the ropes is equal to what they make of the other. With a third
rope after or before them, this is so if the choice of an encoding does not part the two. -/
structure Interchanges (session : Session) (left right : Rope) : Prop where
  concat_last : ∀ last policy policy', session.Names last →
    (RopeM.equals (left.concat last policy) (right.concat last policy')).outcome session.store =
      if left.byteLen + last.byteLen ≤ Size.max then
        .ok (decide ¬Rope.PartsAfter left right last)
      else .error .sizeOverflow
  concat_first : ∀ first policy policy', session.Names first →
    (RopeM.equals (first.concat left policy) (first.concat right policy')).outcome session.store =
      if first.byteLen + left.byteLen ≤ Size.max then
        .ok (decide ¬Rope.PartsBefore first left right)
      else .error .sizeOverflow
  resolve : (RopeM.equals left.resolve right.resolve).outcome session.store = .ok true
  slice : ∀ offset len, offset + len ≤ left.byteLen →
    (RopeM.equals (left.slice offset len) (right.slice offset len)).outcome session.store = .ok true
  rebalance : ∀ policy policy' root root' store store',
    left.rebalance policy session.store = .ok root store →
    right.rebalance policy' store = .ok root' store' → root.equal root' store' = .ok true store'

theorem Holds.checked (h : session.Holds Deed.Checked c) (hrope : session.Names rope) :
    rope.Checked := by
  obtain ⟨_, hget⟩ := hrope
  exact (h.ropes hget).2.checked

/-- Equal ropes of a session in which no caller says tags or numbers of characters can stand in for
each other, but for the encoding that a concatenation takes. -/
theorem Reachable.interchanges (h : session.Reachable Deed.Checked) (hl : session.Names left)
    (hr : session.Names right) (hequal : session.Equals left right) :
    session.Interchanges left right := by
  obtain ⟨c, hholds⟩ := h.holds
  have hkey := (hholds.equals_iff hl hr).mp hequal
  constructor
  case concat_last =>
    intro last policy policy' hlast
    rw [hholds.store]
    exact Rope.outcome_concat_last (hholds.live hl) (hholds.live hr) (hholds.live hlast)
      (hholds.checked hl) (hholds.checked hr) (hholds.checked hlast) hkey
  case concat_first =>
    intro first policy policy' hfirst
    rw [hholds.store]
    exact Rope.outcome_concat_first (hholds.live hl) (hholds.live hr) (hholds.live hfirst)
      (hholds.checked hl) (hholds.checked hr) (hholds.checked hfirst) hkey
  case resolve =>
    rw [hholds.store]
    exact Rope.outcome_resolve (hholds.live hl) (hholds.live hr) hkey
  case slice =>
    intro offset len hrange
    rw [hholds.store]
    exact Rope.outcome_slice (hholds.live hl) (hholds.live hr) hkey hrange
  case rebalance =>
    intro policy policy' root root' store store' hrun hrun'
    rw [hholds.store] at hrun
    exact Rope.equal_of_rebalance (hholds.live hl) (hholds.live hr) hkey hrun hrun'

/-- A letter under UTF-8 before two under UTF-16LE is a broken rope, which equals the three letters
scanned at once. An ISO-8859-1 letter that is not ASCII goes with the latter only. -/
theorem exists_parted :
    ∃ (session : Session) (left right last : Rope), session.Reachable Deed.Checked ∧
      session.Names left ∧ session.Names right ∧ session.Names last ∧
      session.Equals left right ∧
      (RopeM.equals (left.concat last .standard) (right.concat last .standard)).outcome
        session.store = .ok false := by
  let session : Session := Session.empty.performAll [
    .make (.text "a") (some "a"), .make (.bytes #[98, 98] .utf16le) (some "u"),
    .make (.concat "a" "u" .standard) (some "right"), .make (.text "abb") (some "left"),
    .make (.bytes #[0xe9] .latin1) (some "last")]
  have h : session.Reachable Deed.Checked := Session.Reachable.empty.performAll (by
    simp [Command.deeds, Recipe.deeds, Deed.Checked])
  have hends : ((session.ropes.get? "left").bind fun left =>
      (session.ropes.get? "right").bind fun right =>
        (session.ropes.get? "last").map fun last =>
          (decide (left.key = right.key),
            (RopeM.equals (left.concat last .standard) (right.concat last .standard)).outcome
              session.store)) = some (true, .ok false) := by
    decide +kernel
  obtain ⟨left, hleft, hends⟩ := Option.bind_eq_some_iff.mp hends
  obtain ⟨right, hright, hends⟩ := Option.bind_eq_some_iff.mp hends
  obtain ⟨last, hlast, hends⟩ := Option.map_eq_some_iff.mp hends
  obtain ⟨hkey, houtcome⟩ := Prod.mk.inj hends
  obtain ⟨c, hholds⟩ := h.holds
  refine ⟨session, left, right, last, h, ⟨_, hleft⟩, ⟨_, hright⟩, ⟨_, hlast⟩, ?_, houtcome⟩
  exact (hholds.equals_iff ⟨_, hleft⟩ ⟨_, hright⟩).mpr (of_decide_eq_true hkey)

end Session

theorem interchanges_letters :
    ∃ (session : Session) (left right last : Rope), session.Reachable Deed.Checked ∧
      session.Names left ∧ session.Names right ∧ session.Equals left right ∧
      session.Interchanges left right ∧ Rope.PartsAfter left right last := by
  obtain ⟨session, left, right, last, h, hleft, hright, hlast, hequal, houtcome⟩ :=
    Session.exists_parted
  have hinterchanges := h.interchanges hleft hright hequal
  refine ⟨session, left, right, last, h, hleft, hright, hequal, hinterchanges, ?_⟩
  by_contra hparts
  rw [hinterchanges.concat_last last .standard .standard hlast, decide_eq_true hparts] at houtcome
  split at houtcome <;> cases houtcome

/-- Equal ropes are not interchangeable: one of two equal ropes and a third rope may make another
rope than the other and the third. -/
theorem not_forall_concat :
    ¬∀ {session : Session}, session.Reachable Deed.Checked → ∀ {left right last : Rope},
      session.Names left → session.Names right → session.Names last →
      session.Equals left right → ∀ same,
      (RopeM.equals (left.concat last .standard) (right.concat last .standard)).outcome
        session.store = .ok same → same = true := by
  intro hall
  obtain ⟨session, left, right, last, h, hleft, hright, hlast, hequal, houtcome⟩ :=
    Session.exists_parted
  cases hall h hleft hright hlast hequal false houtcome

end ByteRope
