import ByteRope.Proofs.Builder.Counter
import ByteRope.Proofs.Builder.Groups

/-!
# What builders amount to

The trees of a builder stand for the groups of its pieces, each tree for as many groups in a row as
it counts (`Builder.Covers`). Joins keep that up as long as the seams in the right side go on in the
whole, and with counts like the digits of a binary counter they do. So what is built has the
encoding that the groups share (`Builder.Built.eq_of_tracks`).
-/

namespace ByteRope.Builder

open Rope (Concatenated Joined Leafed Rebalanced Scanned joinedTags)

variable {P : Rope → Prop} {config : Config} {builder builder' : Builder}
  {seams : Nat → Nat} {groups left right : List Group} {group piece : Group} {rope rope' l r : Rope}
  {policy : BalancePolicy}

/-! ## Ropes -/

/-- The rope is what the groups come to when they are joined. -/
structure Amounts (seam : Nat → Nat) (groups : List Group) (rope : Rope) : Prop where
  wf : rope.WF
  known : rope.range ≠ .unknown
  proper : ∀ group ∈ groups, group.Proper
  content : rope.content = groups.flatMap Group.content
  ascii : rope.isAsciiOnly = groups.all Group.ascii
  encoding : shared? seam groups = some rope.encoding

namespace Amounts

theorem byteLen_ne (h : Amounts seams groups rope) : rope.byteLen ≠ 0 := by
  intro hzero
  have hnil := h.wf.isEmpty_iff_content.mp (Rope.isEmpty_iff.mpr hzero)
  rw [h.content, List.flatMap_eq_nil_iff] at hnil
  obtain ⟨group, hmem⟩ := List.exists_mem_of_ne_nil _ (ne_nil_of_shared? h.encoding)
  exact (h.proper group hmem).content_ne (hnil group hmem)

theorem compatible (h : Amounts seams groups rope) (hascii : rope.range = .asciiOnly) :
    rope.encoding.isAsciiCompatible = true := by
  have hall : groups.all Group.ascii = true := h.ascii ▸ decide_eq_true hascii
  have hencoding := h.encoding
  rw [shared?_of_all hall, Option.map_eq_some_iff] at hencoding
  obtain ⟨group, hhead, hencoding⟩ := hencoding
  have hmem := List.mem_of_head? hhead
  exact hencoding ▸ (h.proper group hmem).compatible (List.all_eq_true.mp hall group hmem)

theorem of_rope (hseam : seams 0 = 0) (hwf : rope.WF) (hknown : rope.range ≠ .unknown)
    (hne : rope.byteLen ≠ 0)
    (hcompatible : rope.range = .asciiOnly → rope.encoding.isAsciiCompatible = true) :
    Amounts seams [Group.ofRope rope] rope where
  wf := hwf
  known := hknown
  proper group hmem := by
    rw [List.mem_singleton.mp hmem]
    refine ⟨fun hnil => hne ?_, fun hascii => hcompatible (of_decide_eq_true hascii)⟩
    exact Rope.isEmpty_iff.mp (hwf.isEmpty_iff_content.mpr hnil)
  content := by simp [Group.ofRope]
  ascii := by simp [Group.ofRope]
  encoding := shared?_singleton hseam _

theorem of_eq (h : Amounts seams groups rope) (hwf : rope'.WF)
    (hencoding : rope'.encoding = rope.encoding) (hrange : rope'.range = rope.range)
    (hcontent : rope'.content = rope.content) : Amounts seams groups rope' where
  wf := hwf
  known := hrange ▸ h.known
  proper := h.proper
  content := hcontent.trans h.content
  ascii := by rw [Rope.isAsciiOnly, hrange, ← Rope.isAsciiOnly, h.ascii]
  encoding := hencoding ▸ h.encoding

theorem leafed (h : Amounts seams groups rope) (hleafed : Leafed rope rope') :
    Amounts seams groups rope' :=
  h.of_eq (hleafed.wf h.wf) hleafed.encoding_eq (hleafed.range_eq h.known) hleafed.content_eq

theorem rebalanced (hP : ∀ rope, P rope → rope.WF) (h : Amounts seams groups rope)
    (hrebalanced : Rebalanced P policy rope rope') : Amounts seams groups rope' := by
  refine h.of_eq ?_ (congrArg Tags.encoding hrebalanced.tags_eq)
    (congrArg Tags.range hrebalanced.tags_eq) hrebalanced.content_eq
  cases hrebalanced with
  | same => exact h.wf
  | rebuilt _ hl hr _ _ hrebuilt => exact hrebuilt.wf h.wf (hP _ hl) (hP _ hr)

theorem prepared (hP : ∀ rope, P rope → rope.WF) (h : Amounts seams groups rope)
    (hprepared : Prepared P config rope rope') : Amounts seams groups rope' := by
  cases hprepared with
  | kept => exact h
  | rebuilt _ _ hrebalanced => exact h.rebalanced hP hrebalanced
  | unbalanced _ _ _ _ _ hleafed | flattened _ _ hleafed => exact h.leafed hleafed

theorem ascii_concat (hl : Amounts seams left l) (hr : Amounts seams right r)
    (h : rope.range = (joinedTags l r).2) :
    rope.isAsciiOnly = (left.all Group.ascii && right.all Group.ascii) := by
  rw [← hl.ascii, ← hr.ascii, Rope.isAsciiOnly, h, Bool.eq_iff_iff, decide_eq_true_iff,
    Rope.joinedTags_ascii_iff hl.compatible hr.compatible]
  simp [Rope.isAsciiOnly]

theorem concat (hle : ∀ place, seams place ≤ place - 1) (hfitting : Fitting seams left right)
    (hl : Amounts seams left l) (hr : Amounts seams right r)
    (h : Concatenated l r policy rope) : Amounts seams (left ++ right) rope := by
  have hjoined := h.joined hl.byteLen_ne hr.byteLen_ne
  refine ⟨h.wf hl.wf hr.wf, ?_, ?_, ?_, ?_, ?_⟩
  · rw [hjoined.range_eq]
    exact Rope.joinedTags_ne_unknown hl.known hr.known
  · exact fun group hmem => (List.mem_append.mp hmem).elim (hl.proper group) (hr.proper group)
  · rw [h.content_eq hl.wf hr.wf, hl.content, hr.content, List.flatMap_append]
  · rw [List.all_append, ascii_concat hl hr hjoined.range_eq]
  · rw [shared?_append hle hfitting hr.proper (ne_nil_of_shared? hl.encoding),
      hjoined.encoding_eq, Rope.joinedTags_encoding hl.compatible, hl.encoding, hr.encoding,
      hl.ascii, hr.ascii, Option.any_some]
    split <;> rfl

/-- Two pieces of one encoding in one leaf are one group. -/
theorem merge (hseam : seams 0 = 0) (hl : Amounts seams [group] l) (hr : Amounts seams [piece] r)
    (hencoding : l.encoding = r.encoding) (h : Concatenated l r policy rope) :
    Amounts seams [group.merge piece] rope := by
  have hjoined := h.joined hl.byteLen_ne hr.byteLen_ne
  have hgroup : group.encoding = l.encoding :=
    Option.some.inj ((shared?_singleton hseam group).symm.trans hl.encoding)
  have hsame : (joinedTags l r).1 = l.encoding := by
    rw [Rope.joinedTags_encoding hl.compatible, ← hencoding]
    split <;> rfl
  refine ⟨h.wf hl.wf hr.wf, ?_, ?_, ?_, ?_, ?_⟩
  · rw [hjoined.range_eq]
    exact Rope.joinedTags_ne_unknown hl.known hr.known
  · intro other hmem
    rw [List.mem_singleton.mp hmem]
    exact (hl.proper group (List.mem_singleton_self _)).merge
  · rw [h.content_eq hl.wf hr.wf, hl.content, hr.content]
    simp [Group.merge]
  · rw [ascii_concat hl hr hjoined.range_eq]
    simp [Group.merge]
  · rw [shared?_singleton hseam, hjoined.encoding_eq, hsame, ← hgroup]
    rfl

/-- The piece is merged into the group if the ropes are to be merged. -/
theorem fits_iff (hseam : seams 0 = 0) (hl : Amounts seams [group] l)
    (hr : Amounts seams [piece] r) :
    Group.Fits config.smallConcatBytes group piece ↔ FitsTail config l r := by
  have hgroup {group : Group} {rope : Rope} (h : Amounts seams [group] rope) :
      group.encoding = rope.encoding ∧ group.content.length = rope.byteLen := by
    refine ⟨Option.some.inj ((shared?_singleton hseam group).symm.trans h.encoding), ?_⟩
    rw [← h.wf.length_content, h.content, List.flatMap_singleton]
  rw [Group.Fits, FitsTail, (hgroup hl).1, (hgroup hr).1, (hgroup hl).2, (hgroup hr).2]

end Amounts

/-! ## Forests -/

/-- Each tree is what a list of groups amounts to, and counts them. -/
def Covers (seams : Nat → Nat) (forest : List Tree) (lists : List (List Group)) : Prop :=
  Counts (Amounts seams) forest lists

/-- How many groups the trees of a forest stand for: one tree may take in all if trees are left
alone, and otherwise they are the digits of a binary counter, least first. -/
def Shaped (strategy : Strategy) (lists : List (List Group)) : Prop :=
  match strategy with
  | .never => lists.length ≤ 1
  | .rebalance | .flatten => Digits (lists.map List.length)

variable {strategy : Strategy} {forest forest' earlier : List Tree} {lists : List (List Group)}
  {count : Nat}

theorem Merged.amounts (hle : ∀ place, seams place ≤ place - 1)
    (hfitting : Fitting seams left right)
    (hl : Amounts seams left l) (hr : Amounts seams right r) (h : Merged config l r rope) :
    Amounts seams (left ++ right) rope := by
  cases h with
  | joined _ hconcat => exact hl.concat hle hfitting hr hconcat
  | flattened _ hconcat hleafed => exact (hl.concat hle hfitting hr hconcat).leafed hleafed

theorem merges_amounts (hstrategy : strategy ≠ .never) (config : Config) :
    Merges config (Amounts (seam strategy)) :=
  fun hlength hpow hl hr h =>
    h.amounts (seam_le _) (fitting_of_pow hstrategy hpow (Nat.le_of_eq hlength.symm)) hl hr

theorem joins_amounts (hstrategy : strategy ≠ .never) (policy : BalancePolicy) :
    Joins policy (Amounts (seam strategy)) :=
  fun hlt hpow hl hr h =>
    hl.concat (seam_le _) (fitting_of_pow hstrategy hpow (Nat.le_of_lt hlt)) hr h

theorem Extended.covers (h : Extended config rope forest forest')
    (hrope : Amounts (seam .never) [group] rope) (hforest : Covers (seam .never) forest lists)
    (hlists : lists.length ≤ 1) :
    ∃ lists', Covers (seam .never) forest' lists' ∧ lists'.length ≤ 1 ∧
      lists'.reverse.flatten = lists.reverse.flatten ++ [group] := by
  cases h with
  | alone =>
    cases hforest
    exact ⟨[[group]], .cons ⟨hrope, rfl⟩ .nil, Nat.le_refl 1, rfl⟩
  | more hconcat =>
    cases hforest with
    | @cons _ list _ rest hlast hearlier =>
      cases hearlier with
      | cons => simp at hlists
      | nil =>
        refine ⟨[list ++ [group]], .cons ⟨?_, ?_⟩ .nil, Nat.le_refl 1, by simp⟩
        · exact hlast.1.concat (seam_le _) (fitting_never list group) hrope hconcat
        · rw [List.length_append, hlast.2]
          rfl

/-! ## Builders -/

theorem shaped_iff (h : strategy ≠ .never) :
    Shaped strategy lists ↔ Digits (lists.map List.length) := by
  cases strategy with
  | never => exact absurd rfl h
  | rebalance | flatten => rfl

theorem shaped_nil (strategy : Strategy) : Shaped strategy [] := by
  cases strategy with
  | never => exact Nat.zero_le 1
  | rebalance | flatten => exact ⟨nofun, .nil⟩

/-- The forest stands for the groups. -/
def Stands (groups : List Group) (builder : Builder) : Prop :=
  ∃ lists, Covers (seam builder.config.rebalance) builder.forest lists ∧
    Shaped builder.config.rebalance lists ∧ lists.reverse.flatten = groups

/-- The forest and the piece held back stand for the groups. If nothing is held back, the last group
takes in no piece. -/
inductive Tracks : List Group → Builder → Prop
  | flushed {groups : List Group} {builder : Builder} : builder.tail? = none →
    Stands groups builder → (∀ group, groups.getLast? = some group →
      builder.config.smallConcatBytes < group.content.length) → Tracks groups builder
  | held {groups : List Group} {group : Group} {builder : Builder} {tail : Rope} :
    builder.tail? = some tail → Stands groups builder →
    Amounts (seam builder.config.rebalance) [group] tail → Tracks (groups ++ [group]) builder

theorem stands_iff_bears (h : builder.config.rebalance ≠ .never) :
    Stands groups builder ↔
      Bears (Amounts (seam builder.config.rebalance)) groups builder.forest := by
  unfold Stands
  simp only [shaped_iff h]
  rfl

theorem Appended.stands (hP : ∀ rope, P rope → rope.WF) (h : Appended P builder rope builder')
    (hrope : Amounts (seam builder.config.rebalance) [group] rope)
    (hstands : Stands groups builder) :
    Stands (groups ++ [group]) builder' := by
  cases h with
  | carry hstrategy hprepared hcarried =>
    have hrope := hrope.prepared hP hprepared
    have hforest := (stands_iff_bears hstrategy).mp hstands
    refine (stands_iff_bears ?_).mpr ?_
    · exact hstrategy
    · exact hcarried.bears (merges_amounts hstrategy builder.config) hrope hforest
  | extend hstrategy hprepared hextended =>
    have hrope := hrope.prepared hP hprepared
    obtain ⟨lists, hforest, hshaped, rfl⟩ := hstands
    unfold Stands
    rw [hstrategy] at hforest hshaped hrope ⊢
    exact hextended.covers hrope hforest hshaped

theorem Flushed.stands (hP : ∀ rope, P rope → rope.WF) (h : Flushed P builder builder')
    (htracks : Tracks groups builder) : Stands groups builder' := by
  cases h with
  | none hnone =>
    cases htracks with
    | flushed _ hstands => exact hstands
    | held htail =>
      rw [hnone] at htail
      cases htail
  | tail htail happended =>
    cases htracks with
    | flushed hnone =>
      rw [hnone] at htail
      cases htail
    | held htail' hstands hamounts =>
      cases htail.symm.trans htail'
      exact happended.stands hP hamounts hstands

theorem Group.ofRope_scanned {encoding : Encoding} {bytes : Bytes}
    (h : Scanned encoding bytes rope) :
    Group.ofRope rope = ⟨encoding, encoding.isAsciiCompatible && bytes.isAscii, bytes.toList⟩ := by
  have hascii : rope.isAsciiOnly = (encoding.isAsciiCompatible && bytes.isAscii) := by
    rw [Bool.eq_iff_iff, Bool.and_eq_true, ← Encoding.scan_range_eq_asciiOnly_iff]
    cases h with
    | leaf _ hkind => exact hkind ▸ decide_eq_true_iff
  rw [ofRope, hascii]
  cases h with
  | leaf => rfl

/-- A piece that can be pushed without its range being looked for. -/
structure Suitable (piece : Rope) : Prop where
  wf : piece.WF
  known : piece.range ≠ .unknown
  compatible : piece.range = .asciiOnly → piece.encoding.isAsciiCompatible = true

theorem Suitable.amounts (h : Suitable rope) (hne : rope.byteLen ≠ 0) (strategy : Strategy) :
    Amounts (seam strategy) [Group.ofRope rope] rope :=
  .of_rope (Nat.le_zero.mp (seam_le strategy 0)) h.wf h.known hne h.compatible

theorem Pushed.tracks (hP : ∀ rope, P rope → rope.WF) (h : Pushed P builder rope builder')
    (hrope : Suitable rope) (htracks : Tracks groups builder) :
    Tracks (Group.add builder.config.smallConcatBytes groups (Group.ofRope rope)) builder' := by
  have hseam := Nat.le_zero.mp (seam_le builder.config.rebalance 0)
  cases h with
  | empty hzero =>
    have hnil : (Group.ofRope rope).content = [] :=
      hrope.wf.isEmpty_iff_content.mp (Rope.isEmpty_iff.mpr hzero)
    rwa [Group.add, if_pos hnil]
  | @merged tail joined leaf hne htail hfits hconcat hleafed =>
    have hamounts := hrope.amounts hne builder.config.rebalance
    cases htracks with
    | flushed hnone =>
      rw [hnone] at htail
      cases htail
    | @held front group _ _ htail' hstands htail'' =>
      cases htail.symm.trans htail'
      have hne' := (hamounts.proper _ (List.mem_singleton_self _)).content_ne
      rw [Group.add_of_fits hne' ((Amounts.fits_iff hseam htail'' hamounts).mpr hfits)]
      exact .held rfl hstands ((htail''.merge hseam hamounts hfits.1 hconcat).leafed hleafed)
  | accepted hne hapart haccepted =>
    have hamounts := hrope.amounts hne builder.config.rebalance
    have hne' := (hamounts.proper _ (List.mem_singleton_self _)).content_ne
    have hadd : Group.add builder.config.smallConcatBytes groups (Group.ofRope rope) =
        groups ++ [Group.ofRope rope] := by
      refine Group.add_of_apart hne' fun group hlast hfits => ?_
      cases htracks with
      | flushed _ _ hlarge =>
        have hle := hfits.2
        have hlt := hlarge group hlast
        omega
      | held htail _ htail' =>
        rw [List.getLast?_concat] at hlast
        cases hlast
        exact hapart _ htail ((Amounts.fits_iff hseam htail' hamounts).mp hfits)
    rw [hadd]
    cases haccepted with
    | held hflushed =>
      have hstands := hflushed.stands hP htracks
      refine .held rfl hstands ?_
      exact hflushed.config_eq ▸ hamounts
    | large hflushed hlarge happended =>
      have hstands := hflushed.stands hP htracks
      rw [← hflushed.config_eq] at hamounts
      refine .flushed (happended.tail_eq.trans hflushed.tail_eq)
        (happended.stands hP hamounts hstands) fun group hlast => ?_
      rw [List.getLast?_concat] at hlast
      cases hlast
      rw [happended.config_eq, hflushed.config_eq]
      exact hrope.wf.length_content ▸ hlarge

/-- A builder stands for the groups of the pieces that were pushed into it. -/
theorem Grown.tracks {encoding : Encoding} {pieces : List Rope} (hP : ∀ rope, P rope → rope.WF)
    (h : Grown P encoding config pieces builder) (hpieces : ∀ piece ∈ pieces, Suitable piece) :
    Tracks (Group.gather config.smallConcatBytes (pieces.map Group.ofRope)) builder := by
  induction h with
  | new => exact .flushed rfl ⟨[], .nil, shaped_nil _, rfl⟩ nofun
  | push hgrown hpushed ih =>
    have htracks := ih fun piece hmem => hpieces piece (List.mem_append_left _ hmem)
    have hpiece := hpieces _ (List.mem_append_right _ (List.mem_singleton_self _))
    rw [List.map_append, List.map_singleton, Group.gather_concat, ← hgrown.config_eq]
    exact hpushed.tracks hP hpiece (hgrown.config_eq ▸ htracks)

theorem Built.eq_of_tracks (hP : ∀ rope, P rope → rope.WF) (h : Built P builder rope)
    (htracks : Tracks groups builder) :
    rope.content = groups.flatMap Group.content ∧
      rope.encoding = (shared? (seam builder.config.rebalance) groups).getD builder.encoding := by
  cases h with
  | empty hflushed hforest hscanned =>
    obtain ⟨lists, hcovers, -, rfl⟩ := hflushed.stands hP htracks
    rw [hforest] at hcovers
    cases hcovers
    cases hscanned
    exact ⟨rfl, hflushed.encoding_eq⟩
  | @trees builder' _ _ _ hflushed hforest hassembled =>
    have hstands := hflushed.stands hP htracks
    rw [← hflushed.config_eq]
    suffices hamounts : Amounts (seam builder'.config.rebalance) groups rope by
      rw [hamounts.encoding]
      exact ⟨hamounts.content, rfl⟩
    by_cases hnever : builder'.config.rebalance = .never
    · obtain ⟨lists, hcovers, hshaped, rfl⟩ := hstands
      rw [hforest] at hcovers
      rw [hnever] at hcovers hshaped ⊢
      cases hcovers with
      | @cons _ list _ rest hlast hearlier =>
        cases rest with
        | cons => exact absurd hshaped (by simp [Shaped])
        | nil =>
          cases hearlier
          cases hassembled
          simpa using hlast.1
    · have hbears := (stands_iff_bears hnever).mp hstands
      rw [hforest] at hbears
      exact hbears.assembled (joins_amounts hnever builder'.config.policy) hassembled

end ByteRope.Builder
