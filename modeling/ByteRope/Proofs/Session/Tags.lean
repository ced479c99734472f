import ByteRope.Proofs.Rope.Soundness
import ByteRope.Proofs.Session.Reachable

/-!
# Tags in sessions

What the tags of the ropes of a session say of their content, whatever was made before.
-/

namespace ByteRope

variable {session : Session} {name : String} {rope node : Rope}

/-- As long as no caller gives tags to joins or views, the good tags of every node under every rope
of a session are sound. -/
theorem Session.Reachable.soundTags (h : session.Reachable (· ≠ .tag))
    (hget : session.ropes.get? name = some rope) (hn : node.Within rope) : node.SoundTags := by
  obtain ⟨c, hholds⟩ := h.holds
  exact (hholds.ropes hget).2.forall_within (Rope.passes_soundTags (by simp)) hn

/-- A letter put together out of its halves and resolved, and the end of a word under another
encoding, go through a builder. Both are inner nodes of what is built, and their good tags are
sound, though the leaves of the letter are broken. -/
theorem soundTags_inner :
    ∃ (session : Session) (rope letter view : Rope), session.Reachable (· ≠ .tag) ∧
      session.ropes.get? "r" = some rope ∧ rope.children = [letter, view] ∧
      letter.tags = ⟨.utf8, .valid, 1⟩ ∧ letter.children.map Rope.range = [.broken, .broken] ∧
      view.tags = ⟨.usAscii, .asciiOnly, 2⟩ ∧ view.children.map Rope.encoding = [.utf8] ∧
      letter.SoundTags ∧ view.SoundTags := by
  let first : Rope := .leaf 0 .invalid .utf8 1 #[0xc3]
  let second : Rope := .leaf 1 .invalid .utf8 1 #[0xa9]
  let letter : Rope := .join 3 ⟨.utf8, .valid, 1⟩ 2 1 true first second
  let word : Rope := .leaf 4 .asciiOnly .utf8 3 #[97, 98, 99]
  let view : Rope := .view 6 ⟨.usAscii, .asciiOnly, 2⟩ 2 1 1 word
  let rope : Rope := .join 7 ⟨.utf8, .valid, 3⟩ 4 2 true letter view
  let session : Session := Session.empty.performAll [
    .make (.bytes #[0xc3] .utf8) (some "first"), .make (.bytes #[0xa9] .utf8) (some "second"),
    .make (.concat "first" "second" .standard) (some "letter"),
    .make (.resolve "letter") (some "letter"), .make (.text "abc") (some "word"),
    .make (.slice "word" 1 2) (some "view"), .make (.toSevenBit "view" .usAscii) (some "view"),
    .newBuilder "b" .utf8 {}, .pushRope "b" "letter" 1, .pushRope "b" "view" 1,
    .make (.build "b") (some "r")]
  have h : session.Reachable (· ≠ .tag) :=
    Session.Reachable.empty.performAll (by simp [Command.deeds, Recipe.deeds])
  have hget : session.ropes.get? "r" = some rope := by decide +kernel
  have hletter : letter.Within rope := .of_child (List.mem_cons_self ..)
  have hview : view.Within rope := .of_child (List.mem_cons_of_mem _ (List.mem_cons_self ..))
  exact ⟨session, rope, letter, view, h, hget, rfl, rfl, rfl, rfl, rfl, h.soundTags hget hletter,
    h.soundTags hget hview⟩

end ByteRope
