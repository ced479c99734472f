import Mathlib.Algebra.GroupWithZero.Nat
import Mathlib.Data.List.Induction
import ByteRope.Builder

/-!
# Groups of pieces

What the settings of a builder make of the encodings of its pieces. Small pieces of one encoding
are merged into groups, and the groups are joined in an order that hangs on the strategy. A join
takes the encoding of its left side, unless that side is ASCII only and the right side is neither
ASCII only nor of an encoding that is not ASCII compatible. So the encoding of all groups together
is decided at the first group that is not ASCII only (`Builder.shared?`), and the order of the joins
comes in through the place where the tree right before that group begins (`Builder.seam`).
-/

namespace ByteRope.Builder

/-- What is known of pieces that are merged into one leaf. -/
structure Group where
  encoding : Encoding
  ascii : Bool
  content : List UInt8

namespace Group

/-- The group of one piece. -/
def ofRope (rope : Rope) : Group := ⟨rope.encoding, rope.isAsciiOnly, rope.content⟩

/-- A group with a piece more. -/
def merge (group piece : Group) : Group :=
  ⟨group.encoding, group.ascii && piece.ascii, group.content ++ piece.content⟩

/-- The piece is to be merged into the group. -/
def Fits (small : Nat) (group piece : Group) : Prop :=
  group.encoding = piece.encoding ∧ group.content.length + piece.content.length ≤ small

instance (small : Nat) (group piece : Group) : Decidable (Fits small group piece) :=
  inferInstanceAs (Decidable (_ ∧ _))

/-- A group is not empty, and its encoding is ASCII compatible if all of it is ASCII. -/
structure Proper (group : Group) : Prop where
  content_ne : group.content ≠ []
  compatible : group.ascii = true → group.encoding.isAsciiCompatible = true

/-- The groups with a piece more: it is merged into the last group if it fits there. -/
def add (small : Nat) (groups : List Group) (piece : Group) : List Group :=
  if piece.content = [] then groups
  else
    match groups.getLast? with
    | none => [piece]
    | some last =>
      if Fits small last piece then groups.dropLast ++ [last.merge piece] else groups ++ [piece]

/-- The groups into which pieces are merged. -/
def gather (small : Nat) (pieces : List Group) : List Group := pieces.foldl (add small) []

end Group

/-- Where the tree begins that is joined with the tree after it that begins at a place. Left alone,
all trees before are one. Otherwise trees are joined like the carries of a binary counter, and that
takes the last binary one off a place. -/
def seam : Strategy → Nat → Nat
  | .never, _ => 0
  | .rebalance, place | .flatten, place => place &&& (place - 1)

/-- The encoding that groups share when they are joined: that of the first group that is not ASCII
only if it is ASCII compatible, and otherwise that of the group at the seam before it. -/
def shared? (seam : Nat → Nat) (groups : List Group) : Option Encoding :=
  match groups.findIdx? fun group => !group.ascii with
  | none => groups.head?.map Group.encoding
  | some place =>
    (groups[place]?).bind fun group =>
      if group.encoding.isAsciiCompatible then some group.encoding
      else (groups[seam place]?).map Group.encoding

/-- The seams in the second list of groups go on in both together. -/
def Fitting (seam : Nat → Nat) (left right : List Group) : Prop :=
  ∀ place < right.length,
    seam (left.length + place) = if place = 0 then 0 else left.length + seam place

variable {strategy : Strategy} {small count place : Nat} {left right groups : List Group}
  {group piece : Group}

/-! ## Seams -/

theorem seam_le (strategy : Strategy) (place : Nat) : seam strategy place ≤ place - 1 := by
  cases strategy with
  | never => exact Nat.zero_le _
  | rebalance | flatten => exact Nat.and_le_right

theorem seam_two_pow_add (h : strategy ≠ .never) (hlt : place < 2 ^ count) :
    seam strategy (2 ^ count + place) =
      if place = 0 then 0 else 2 ^ count + seam strategy place := by
  have hor {low : Nat} (hlow : low < 2 ^ count) : 2 ^ count + low = 2 ^ count ||| low := by
    have heq := Nat.two_pow_add_eq_or_of_lt hlow 1
    rwa [Nat.mul_one] at heq
  have hseam (place : Nat) : seam strategy place = place &&& (place - 1) := by
    cases strategy with
    | never => exact absurd rfl h
    | rebalance | flatten => rfl
  rw [hseam, hseam]
  split
  next hzero => rw [hzero, Nat.add_zero, Nat.and_two_pow_sub_one_eq_mod, Nat.mod_self]
  next hpos =>
    have hpred : place - 1 < 2 ^ count := Nat.lt_of_le_of_lt (Nat.sub_le ..) hlt
    have hand : place &&& (place - 1) < 2 ^ count := Nat.lt_of_le_of_lt Nat.and_le_right hpred
    rw [Nat.add_sub_assoc (Nat.pos_of_ne_zero hpos), hor hlt, hor hpred, hor hand,
      Nat.or_and_distrib_left]

theorem fitting_of_pow (h : strategy ≠ .never) (hpow : ∃ count, left.length = 2 ^ count)
    (hle : right.length ≤ left.length) : Fitting (seam strategy) left right := by
  obtain ⟨count, hcount⟩ := hpow
  intro place hplace
  rw [hcount]
  exact seam_two_pow_add h (hcount ▸ Nat.lt_of_lt_of_le hplace hle)

theorem fitting_never (groups : List Group) (group : Group) :
    Fitting (seam .never) groups [group] := by
  intro place hplace
  cases Nat.lt_one_iff.mp hplace
  rfl

/-! ## Encodings -/

theorem findIdx?_of_all (h : groups.all Group.ascii = true) :
    (groups.findIdx? fun group => !group.ascii) = none := by
  rw [List.findIdx?_eq_none_iff]
  intro group hmem
  rw [List.all_eq_true.mp h group hmem]
  rfl

theorem findIdx?_of_not_all (h : groups.all Group.ascii = false) :
    ∃ place, ∃ hlt : place < groups.length,
      (groups.findIdx? fun group => !group.ascii) = some place ∧ groups[place].ascii = false ∧
        ∀ group ∈ groups.take place, group.ascii = true := by
  cases hfind : groups.findIdx? fun group => !group.ascii with
  | none =>
    rw [List.findIdx?_eq_none_iff] at hfind
    have hall : groups.all Group.ascii = true :=
      List.all_eq_true.mpr fun group hmem => by simpa using hfind group hmem
    rw [hall] at h
    cases h
  | some place =>
    obtain ⟨hlt, hgroup, hbefore⟩ := List.findIdx?_eq_some_iff_getElem.mp hfind
    refine ⟨place, hlt, rfl, by simpa using hgroup, fun group hmem => ?_⟩
    obtain ⟨before, hb, rfl⟩ := List.mem_take_iff_getElem.mp hmem
    simpa using hbefore before (Nat.lt_of_lt_of_le hb (Nat.min_le_left ..))

theorem shared?_of_all (h : groups.all Group.ascii = true) (seam : Nat → Nat) :
    shared? seam groups = groups.head?.map Group.encoding := by
  rw [shared?, findIdx?_of_all h]

theorem shared?_singleton {seam : Nat → Nat} (hseam : seam 0 = 0) (group : Group) :
    shared? seam [group] = some group.encoding := by
  cases hascii : group.ascii <;> simp [shared?, hascii, hseam]

/-- The encodings of two lists of groups settle the encoding of both together if the seams of the
second go on in the whole. -/
theorem shared?_append {seam : Nat → Nat} (hle : ∀ place, seam place ≤ place - 1)
    (hfitting : Fitting seam left right) (hproper : ∀ group ∈ right, group.Proper)
    (hleft : left ≠ []) :
    shared? seam (left ++ right) =
      if left.all Group.ascii && !right.all Group.ascii &&
        (shared? seam right).any Encoding.isAsciiCompatible
      then shared? seam right else shared? seam left := by
  cases hl : left.all Group.ascii with
  | false =>
    obtain ⟨place, hlt, hfind, -, -⟩ := findIdx?_of_not_all hl
    have hlt' : seam place < left.length := by have := hle place; omega
    simp only [shared?, List.findIdx?_append, hfind, Option.some_or,
      List.getElem?_append_left hlt, List.getElem?_append_left hlt']
    rfl
  | true =>
    have hhead : (left ++ right).head? = left.head? := by
      rw [List.head?_append, Option.or_of_isSome (List.isSome_head?.mpr hleft)]
    cases hr : right.all Group.ascii with
    | true =>
      have hall : (left ++ right).all Group.ascii = true := by rw [List.all_append, hl, hr]; rfl
      rw [shared?_of_all hall, shared?_of_all hl, hhead]
      rfl
    | false =>
      obtain ⟨place, hlt, hfind, -, hbefore⟩ := findIdx?_of_not_all hr
      have hfind' : ((left ++ right).findIdx? fun group => !group.ascii) =
          some (left.length + place) := by
        rw [List.findIdx?_append, findIdx?_of_all hl, hfind, Nat.add_comm]
        rfl
      have hplace : (left ++ right)[left.length + place]? = some right[place] := by
        rw [List.getElem?_append_right (Nat.le_add_right ..), Nat.add_sub_cancel_left,
          List.getElem?_eq_getElem hlt]
      rw [shared?_of_all hl]
      simp only [shared?, hfind', hplace, hfind, List.getElem?_eq_getElem hlt, hfitting place hlt,
        Option.bind_some]
      cases hc : right[place].encoding.isAsciiCompatible with
      | true => simp [hc]
      | false =>
        rcases Nat.eq_zero_or_pos place with rfl | hpos
        · -- The second list begins with the group, so its own encoding is not ASCII compatible.
          have hfirst : seam 0 = 0 := Nat.le_zero.mp (hle 0)
          have hhead' : (left ++ right)[0]? = left.head? := by rw [← List.head?_eq_getElem?, hhead]
          simp only [hfirst, hhead', if_true, List.getElem?_eq_getElem hlt, Option.map_some,
            Option.any_some, hc, Bool.and_false, Bool.false_eq_true, if_false]
        · -- What comes before the group in the second list is ASCII only.
          have hlt' : seam place < place := by have := hle place; omega
          have hlen := Nat.lt_trans hlt' hlt
          have htake : right[seam place] ∈ right.take place :=
            List.mem_take_iff_getElem.mpr ⟨_, Nat.lt_min.mpr ⟨hlt', hlen⟩, rfl⟩
          have hcompatible := (hproper _ (List.getElem_mem hlen)).compatible (hbefore _ htake)
          simp [Nat.ne_of_gt hpos, hlen, hcompatible]

theorem isSome_shared? {seam : Nat → Nat} (hle : ∀ place, seam place ≤ place - 1)
    (h : groups ≠ []) : (shared? seam groups).isSome = true := by
  cases hall : groups.all Group.ascii with
  | true => rw [shared?_of_all hall, Option.isSome_map, List.isSome_head?.mpr h]
  | false =>
    obtain ⟨place, hlt, hfind, -, -⟩ := findIdx?_of_not_all hall
    have hlt' : seam place < groups.length := by have := hle place; omega
    simp only [shared?, hfind, List.getElem?_eq_getElem hlt, List.getElem?_eq_getElem hlt',
      Option.bind_some]
    split <;> rfl

/-- Trees that are left alone take in one group after another. -/
theorem shared?_concat_never (hproper : piece.Proper) :
    shared? (seam .never) (groups ++ [piece]) =
      some (if groups.all Group.ascii && !piece.ascii && piece.encoding.isAsciiCompatible
        then piece.encoding else (shared? (seam .never) groups).getD piece.encoding) := by
  have hle := seam_le .never
  by_cases hnil : groups = []
  · subst hnil
    rw [List.nil_append, shared?_singleton rfl]
    split <;> rfl
  · obtain ⟨encoding, hencoding⟩ := Option.isSome_iff_exists.mp (isSome_shared? hle hnil)
    rw [shared?_append hle (fitting_never groups piece) (by simpa using hproper) hnil,
      shared?_singleton rfl, hencoding]
    simp only [List.all_cons, List.all_nil, Bool.and_true, Option.any_some, Option.getD_some]
    split <;> rfl

theorem ne_nil_of_shared? {seam : Nat → Nat} {encoding : Encoding}
    (h : shared? seam groups = some encoding) : groups ≠ [] := by
  rintro rfl
  cases h

/-- The strategy makes no difference to the encoding unless the first group that is not ASCII only
is under an encoding that is not ASCII compatible and the group at the seam before it is under
another encoding than the first group. -/
theorem shared?_eq_never_iff : shared? (seam strategy) groups = shared? (seam .never) groups ↔
    ∀ place group, (groups.findIdx? fun group => !group.ascii) = some place →
      groups[place]? = some group → group.encoding.isAsciiCompatible = false →
      (groups[seam strategy place]?).map Group.encoding = groups.head?.map Group.encoding := by
  unfold shared?
  cases hfind : groups.findIdx? fun group => !group.ascii with
  | none => exact ⟨fun _ _ _ => nofun, fun _ => rfl⟩
  | some place =>
    obtain ⟨hlt, -, -⟩ := List.findIdx?_eq_some_iff_getElem.mp hfind
    have hgroup := List.getElem?_eq_getElem hlt
    simp only [hgroup, Option.bind_some, seam, List.head?_eq_getElem?]
    cases hc : groups[place].encoding.isAsciiCompatible with
    | true =>
      refine ⟨fun _ other group hother hget hnot => ?_, fun _ => rfl⟩
      cases hother
      rw [hgroup] at hget
      cases hget
      rw [hc] at hnot
      cases hnot
    | false =>
      refine ⟨fun heq other group hother _ _ => ?_, fun h => ?_⟩
      · cases hother
        exact heq
      · exact h place _ rfl hgroup hc

/-! ## Gathering -/

theorem Group.gather_concat (small : Nat) (pieces : List Group) (piece : Group) :
    gather small (pieces ++ [piece]) = add small (gather small pieces) piece := by
  rw [gather, List.foldl_append]
  rfl

theorem Group.add_of_fits {front : List Group} (hne : piece.content ≠ [])
    (h : Fits small group piece) :
    add small (front ++ [group]) piece = front ++ [group.merge piece] := by
  rw [add, if_neg hne, List.getLast?_concat]
  simp only [if_pos h, List.dropLast_concat]

theorem Group.add_of_apart (hne : piece.content ≠ [])
    (h : ∀ group, groups.getLast? = some group → ¬Fits small group piece) :
    add small groups piece = groups ++ [piece] := by
  rw [add, if_neg hne]
  cases hlast : groups.getLast? with
  | none => rw [List.getLast?_eq_none_iff.mp hlast, List.nil_append]
  | some group => exact if_neg (h group hlast)

/-- Adding a piece leaves the groups as they are, merges it into the last, or puts it after them. -/
theorem Group.add_cases (small : Nat) (groups : List Group) (piece : Group) :
    piece.content = [] ∧ add small groups piece = groups ∨
      piece.content ≠ [] ∧ (add small groups piece = groups ++ [piece] ∨
        ∃ front group, groups = front ++ [group] ∧ Fits small group piece ∧
          add small groups piece = front ++ [group.merge piece]) := by
  by_cases hempty : piece.content = []
  · exact .inl ⟨hempty, if_pos hempty⟩
  · refine .inr ⟨hempty, ?_⟩
    rcases List.eq_nil_or_concat groups with rfl | ⟨front, group, rfl⟩
    · exact .inl (add_of_apart hempty nofun)
    · rw [List.concat_eq_append]
      by_cases h : Fits small group piece
      · exact .inr ⟨front, group, rfl, h, add_of_fits hempty h⟩
      · refine .inl (add_of_apart hempty fun other hother => ?_)
        rw [List.getLast?_concat] at hother
        exact Option.some.inj hother ▸ h

theorem Group.Proper.merge (hgroup : group.Proper) : (group.merge piece).Proper where
  content_ne := List.append_ne_nil_of_left_ne_nil hgroup.content_ne _
  compatible h := hgroup.compatible ((Bool.and_eq_true ..).mp h).1

/-- What holds of all pieces that are not empty, and of a group whatever is merged into it, holds of
all groups. -/
theorem Group.forall_mem_gather {Q : Group → Prop} (small : Nat) {pieces : List Group}
    (h : ∀ piece ∈ pieces, piece.content ≠ [] → Q piece)
    (hmerge : ∀ {group} (piece : Group), Q group → Q (group.merge piece)) :
    ∀ group ∈ gather small pieces, Q group := by
  induction pieces using List.reverseRecOn with
  | nil => nofun
  | append_singleton pieces piece ih =>
    have ih := ih fun other hmem => h other (List.mem_append_left _ hmem)
    have hpiece := h piece (List.mem_append_right _ (List.mem_singleton_self _))
    rw [gather_concat]
    rcases add_cases small (gather small pieces) piece with
      ⟨-, hadd⟩ | ⟨hne, hadd | ⟨front, group, hfront, -, hadd⟩⟩ <;> rw [hadd]
    · exact ih
    · intro group hmem
      rcases List.mem_append.mp hmem with hmem | hmem
      · exact ih group hmem
      · rw [List.mem_singleton.mp hmem]
        exact hpiece hne
    · intro other hmem
      rw [hfront] at ih
      rcases List.mem_append.mp hmem with hmem | hmem
      · exact ih other (List.mem_append_left _ hmem)
      · rw [List.mem_singleton.mp hmem]
        exact hmerge piece (ih group (List.mem_append_right _ (List.mem_singleton_self _)))

theorem Group.proper_gather (small : Nat) {pieces : List Group}
    (h : ∀ piece ∈ pieces, piece.ascii = true → piece.encoding.isAsciiCompatible = true) :
    ∀ group ∈ gather small pieces, group.Proper :=
  forall_mem_gather small (fun piece hmem hne => ⟨hne, h piece hmem⟩) fun _ hgroup => hgroup.merge

theorem Group.content_gather (small : Nat) (pieces : List Group) :
    (gather small pieces).flatMap content = pieces.flatMap content := by
  induction pieces using List.reverseRecOn with
  | nil => rfl
  | append_singleton pieces piece ih =>
    rw [gather_concat, List.flatMap_append, ← ih]
    rcases add_cases small (gather small pieces) piece with
      ⟨hempty, hadd⟩ | ⟨-, hadd | ⟨front, group, hfront, -, hadd⟩⟩
    · rw [hadd, List.flatMap_singleton, hempty, List.append_nil]
    · rw [hadd, List.flatMap_append]
    · rw [hadd, hfront]
      simp [merge]

/-- If trees are left alone it does not matter which pieces are merged. -/
theorem shared?_gather_never (small : Nat) {pieces : List Group}
    (h : ∀ piece ∈ pieces, piece.ascii = true → piece.encoding.isAsciiCompatible = true) :
    shared? (seam .never) (Group.gather small pieces) =
        shared? (seam .never) (Group.gather 0 pieces) ∧
      (Group.gather small pieces).all Group.ascii = (Group.gather 0 pieces).all Group.ascii := by
  induction pieces using List.reverseRecOn with
  | nil => exact ⟨rfl, rfl⟩
  | append_singleton pieces piece ih =>
    have hold := fun other hmem => h other (List.mem_append_left _ hmem)
    have hpiece := h piece (List.mem_append_right _ (List.mem_singleton_self _))
    obtain ⟨hshared, hall⟩ := ih hold
    rw [Group.gather_concat, Group.gather_concat]
    by_cases hempty : piece.content = []
    · rw [Group.add, if_pos hempty, Group.add, if_pos hempty]
      exact ⟨hshared, hall⟩
    have hzero : Group.add 0 (Group.gather 0 pieces) piece = Group.gather 0 pieces ++ [piece] := by
      refine Group.add_of_apart hempty fun group _ hfits => hempty ?_
      exact List.length_eq_zero_iff.mp (Nat.eq_zero_of_add_eq_zero_left (Nat.le_zero.mp hfits.2))
    have hproper : piece.Proper := ⟨hempty, hpiece⟩
    rw [hzero, shared?_concat_never hproper, ← hshared, List.all_append, ← hall]
    rcases Group.add_cases small (Group.gather small pieces) piece with
      ⟨hempty', -⟩ | ⟨-, hadd | ⟨front, group, hfront, hfits, hadd⟩⟩
    · exact absurd hempty' hempty
    · rw [hadd, shared?_concat_never hproper, List.all_append]
      exact ⟨rfl, rfl⟩
    · have hgroup : group.Proper := by
        apply Group.proper_gather small hold group
        rw [hfront]
        exact List.mem_append_right _ (List.mem_singleton_self _)
      rw [hadd, hfront, shared?_concat_never hgroup.merge, shared?_concat_never hgroup]
      simp only [Group.merge, List.all_append, List.all_cons, List.all_nil, ← hfits.1]
      grind

end ByteRope.Builder
