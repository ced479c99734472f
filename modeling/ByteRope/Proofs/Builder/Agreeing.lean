import ByteRope.Builder
import ByteRope.Proofs.Rope.Agreeing

/-!
# Builders side by side

Every operation of a builder ends alike from two stores in which equally many nodes have been named.
A builder with the same trees on both sides gets the same trees by each of them.
-/

namespace ByteRope.Builder

open RopeM

variable {t t' : Twins} {builder : Builder} {config : Config} {piece rope left right : Rope}
  {forest : List Tree}

/-- The trees and the piece held back are in use on both sides. -/
structure Twin (t : Twins) (builder : Builder) : Prop where
  forest : ∀ tree ∈ builder.forest, t.Live tree.rope
  tail : ∀ tail, builder.tail? = some tail → t.Live tail

theorem Twin.mono (h : builder.Twin t) (hle : t ≤ t') : builder.Twin t' :=
  ⟨fun tree hmem => (h.forest tree hmem).mono hle, fun tail htail => (h.tail tail htail).mono hle⟩

theorem twin_new (encoding : Encoding) (config : Config) : (new encoding config).Twin t :=
  ⟨nofun, nofun⟩

/-! ## Pieces and trees -/

theorem agree_flattened (h : t.Live rope) :
    Agree t (flattened rope) fun leaf t' => t'.Live leaf :=
  (Rope.agree_toLeaf h).bind fun _ _ _ hleaf => .emit fun _ hle => .pure (hleaf.mono hle)

theorem agree_prepare (h : t.Live piece) :
    Agree t (prepare config piece) fun prepared t' => t'.Live prepared := by
  unfold prepare
  split
  · exact .pure h
  · split
    · exact .pure h
    · exact agree_flattened h
    · refine (Rope.agree_rebalance h).bind fun rebuilt t' hle hrebuilt => ?_
      split
      · exact .emit fun t'' hle' => .pure (hrebuilt.mono hle')
      · exact agree_flattened (h.mono hle)

theorem agree_merge (hl : t.Live left) (hr : t.Live right) :
    Agree t (merge config left right) fun merged t' => t'.Live merged := by
  refine (Rope.agree_concat hl hr).bind fun joined t' _ hjoined => ?_
  split
  · exact agree_flattened hjoined
  all_goals exact .emit fun t'' hle => .pure (hjoined.mono hle)

theorem agree_carry (hrope : t.Live rope) (count : Nat)
    (hforest : ∀ tree ∈ forest, t.Live tree.rope) :
    Agree t (carry config rope count forest) fun forest' t' =>
      ∀ tree ∈ forest', t'.Live tree.rope := by
  induction forest generalizing t rope count with
  | nil => exact .pure (List.forall_mem_singleton.mpr hrope)
  | cons last earlier ih =>
    obtain ⟨hlast, hearlier⟩ := List.forall_mem_cons.mp hforest
    unfold carry
    split
    · refine (agree_merge hlast hrope).bind fun merged t' hle hmerged => ?_
      exact ih hmerged _ fun tree hmem => (hearlier tree hmem).mono hle
    · exact .pure (List.forall_mem_cons.mpr ⟨hrope, hforest⟩)

theorem agree_extend (hpiece : t.Live piece) (hforest : ∀ tree ∈ forest, t.Live tree.rope) :
    Agree t (extend config piece forest) fun forest' t' =>
      ∀ tree ∈ forest', t'.Live tree.rope := by
  cases forest with
  | nil => exact .pure (List.forall_mem_singleton.mpr hpiece)
  | cons last earlier =>
    obtain ⟨hlast, hearlier⟩ := List.forall_mem_cons.mp hforest
    refine (Rope.agree_concat hlast hpiece).bind fun joined t' hle hjoined => .pure ?_
    exact List.forall_mem_cons.mpr ⟨hjoined, fun tree hmem => (hearlier tree hmem).mono hle⟩

theorem agree_append (h : builder.Twin t) (hpiece : t.Live piece) :
    Agree t (builder.append piece) fun builder' t' => builder'.Twin t' := by
  refine (agree_prepare hpiece).bind fun prepared t' hle hprepared => ?_
  have h := h.mono hle
  split
  · refine (agree_extend hprepared h.forest).bind fun forest t'' hle' hforest => .pure ?_
    exact ⟨hforest, (h.mono hle').tail⟩
  all_goals
    refine (agree_carry hprepared 1 h.forest).bind fun forest t'' hle' hforest => .pure ?_
    exact ⟨hforest, (h.mono hle').tail⟩

theorem agree_flushTail (h : builder.Twin t) :
    Agree t builder.flushTail fun builder' t' => builder'.Twin t' := by
  unfold flushTail
  split
  next => exact .pure h
  next tail htail => exact agree_append ⟨h.forest, nofun⟩ (h.tail tail htail)

/-! ## Pushing -/

theorem agree_accept (h : builder.Twin t) (hpiece : t.Live piece) :
    Agree t (builder.accept piece) fun builder' t' => builder'.Twin t' := by
  refine (agree_flushTail h).bind fun flushed t' hle hflushed => ?_
  have hpiece := hpiece.mono hle
  split
  · refine .pure ⟨hflushed.forest, ?_⟩
    rintro _ ⟨⟩
    exact hpiece
  · exact agree_append hflushed hpiece

theorem agree_push (h : builder.Twin t) (hpiece : t.Live piece) :
    Agree t (builder.push piece) fun builder' t' => builder'.Twin t' := by
  unfold push
  split
  · exact .pure h
  · split
    next => exact agree_accept h hpiece
    next tail htail =>
      refine .lift fun fits _ => ?_
      split
      · refine (Rope.agree_concat (h.tail tail htail) hpiece).bind fun joined t₁ hle₁ hjoined => ?_
        refine (Rope.agree_toLeaf hjoined).bind fun merged t₂ hle₂ hmerged => ?_
        refine .emit fun t₃ hle₃ => .pure ⟨(((h.mono hle₁).mono hle₂).mono hle₃).forest, ?_⟩
        rintro _ ⟨⟩
        exact hmerged.mono hle₃
      · exact agree_accept h hpiece

theorem agree_pushBytes (h : builder.Twin t) (bytes : Bytes) :
    Agree t (builder.pushBytes bytes) fun builder' t' => builder'.Twin t' := by
  unfold pushBytes
  split
  · exact .pure h
  · exact Rope.agree_ofBytes.bind fun piece t' hle hpiece => agree_push (h.mono hle) hpiece

theorem agree_pushTimes (h : builder.Twin t) (hpiece : t.Live piece) (count : Nat) :
    Agree t (builder.pushTimes piece count) fun builder' t' => builder'.Twin t' :=
  .iterate (fun _ _ hle h => agree_push h (hpiece.mono hle)) count h

theorem agree_pushBytesTimes (h : builder.Twin t) (bytes : Bytes) (count : Nat) :
    Agree t (builder.pushBytesTimes bytes count) fun builder' t' => builder'.Twin t' :=
  .iterate (fun _ _ _ h => agree_pushBytes h bytes) count h

/-! ## Building -/

theorem agree_build (h : builder.Twin t) : Agree t builder.build fun rope t' => t'.Live rope := by
  refine (agree_flushTail h).bind fun flushed t₁ _ hflushed => ?_
  split
  next => exact Rope.agree_ofBytes
  next last earlier hforest =>
    have hall := hflushed.forest
    rw [hforest] at hall
    obtain ⟨hlast, hearlier⟩ := List.forall_mem_cons.mp hall
    refine (Agree.foldlM (R := fun rope t' => t'.Live rope) (fun tree hmem rope t₂ hle hrope => ?_)
      hlast).bind fun rope t₂ _ hrope => .emit fun t₃ hle₃ => .pure (hrope.mono hle₃)
    exact Rope.agree_concat ((hearlier tree hmem).mono hle) hrope

end ByteRope.Builder
