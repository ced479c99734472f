import ByteRope.Proofs.Builder.Forests
import ByteRope.Proofs.Session.Reachable

/-!
# Feeding builders in sessions

A builder takes in named ropes and octets one after another, while the session goes on around it
(`Builder.Fed`). The steps keep what is needed to say what comes of the builder: its pieces and
trees are in use, it is one that grew out of the pieces (`Builder.Fed.followed`), and its forest
comes of appending what it handed on, and of nothing else (`Builder.Fed.appended`). So its forest is
a binary counter (`Builder.Fed.tallies`), it says how deep the rope will be
(`Builder.Fed.foretells`), and it merges small pieces as far as they can be merged
(`Builder.Fed.coalesces`).
-/

namespace ByteRope

open Rope (Made Family)

variable {encoding : Encoding} {config : Config} {pieces more handed handed' : List Rope}
  {builder builder' : Builder} {session : Session} {store : Store}

/-! ## Histories -/

/-- A builder that was made with these settings in a reachable session, the pieces that were pushed
into it, and the ropes that it handed on to its forest. Between the pushes commands are performed,
children are taken out of ropes, and copies of the builder are built. -/
inductive Builder.Fed (encoding : Encoding) (config : Config) :
    List Rope → List Rope → Builder → Session → Prop
  | new {session : Session} : session.Reachable (fun _ => True) →
    Fed encoding config [] [] (.new encoding config) session
  | push {pieces handed : List Rope} {piece : Rope} {builder builder' : Builder}
    {session : Session} {store : Store} : Fed encoding config pieces handed builder session →
    session.Names piece → builder.push piece session.store = .ok builder' store →
    Fed encoding config (pieces ++ [piece]) (handed ++ builder.hands piece) builder'
      { session with store }
  | pushBytes {pieces handed : List Rope} {bytes : Bytes} {piece : Rope}
    {builder builder' : Builder} {session : Session} {store store' : Store} :
    Fed encoding config pieces handed builder session → bytes.isEmpty = false →
    Rope.ofBytes bytes builder.encoding session.store = .ok piece store →
    builder.push piece store = .ok builder' store' →
    Fed encoding config (pieces ++ [piece]) (handed ++ builder.hands piece) builder'
      { session with store := store' }
  | perform {pieces handed : List Rope} {builder : Builder} {session : Session}
    {command : Command} : Fed encoding config pieces handed builder session →
    Fed encoding config pieces handed builder (session.perform command).2.2
  | reveal {pieces handed : List Rope} {builder : Builder} {session : Session}
    {name target : String} {rope child : Rope} :
    Fed encoding config pieces handed builder session → session.ropes.get? name = some rope →
    child ∈ rope.children → Fed encoding config pieces handed builder
      { session with ropes := session.ropes.set target child }
  | build {pieces handed : List Rope} {builder : Builder} {session : Session} {target : String}
    {rope : Rope} {store : Store} : Fed encoding config pieces handed builder session →
    builder.build session.store = .ok rope store → Fed encoding config pieces handed builder
      { session with store, ropes := session.ropes.set target rope }

/-- The census accounts for the session and for the builder, which grew out of the pieces. -/
structure Builder.Followed (encoding : Encoding) (config : Config) (pieces handed : List Rope)
    (builder : Builder) (c : Census) (session : Session) : Prop where
  holds : session.Holds (fun _ => True) c
  ready : builder.Ready (Made fun _ => True) c
  feeds : Builder.Feeds (Made fun _ => True) encoding config pieces handed builder

theorem Rope.Made.family_all : Family (Made fun _ => True) := Made.family trivial trivial

theorem Rope.Scanned.made_all {bytes : Bytes} {rope : Rope} (h : Scanned encoding bytes rope) :
    rope.Made fun _ => True := .scanned trivial h

namespace Builder.Followed

variable {c c' : Census} {piece rope : Rope}

theorem mono (h : Followed encoding config pieces handed builder c session) (hle : c ≤ c') :
    Followed encoding config pieces handed builder c' { session with store := c'.store } :=
  ⟨h.holds.mono hle, h.ready.mono hle, h.feeds⟩

theorem push (h : Followed encoding config pieces handed builder c session) (hlive : c.live piece)
    (hmade : piece.Made fun _ => True) (hrun : builder.push piece c.store = .ok builder' store) :
    ∃ c', Followed encoding config (pieces ++ [piece]) (handed ++ builder.hands piece) builder' c'
      { session with store } := by
  obtain ⟨c', rfl, hle, hready, hpushed, -, -⟩ :=
    (wf_push Made.family_all h.ready hlive hmade).of_run hrun
  exact ⟨c', h.holds.mono hle, hready, h.feeds.push hmade.wf hpushed⟩

theorem build (h : Followed encoding config pieces handed builder c session)
    (hrun : builder.build c.store = .ok rope store) :
    ∃ c', c'.store = store ∧ c ≤ c' ∧ c'.live rope ∧ rope.Made (fun _ => True) ∧
      Built (Made fun _ => True) builder rope := by
  obtain ⟨c', hstore, hle, hlive, hmade, hbuilt, -⟩ :=
    (wf_build Made.family_all h.ready fun _ hscanned => hscanned.made_all).of_run hrun
  exact ⟨c', hstore, hle, hlive, hmade, hbuilt⟩

end Builder.Followed

/-- A census follows a builder through its history: each step goes on from the one before it. -/
theorem Builder.Fed.followed (h : Fed encoding config pieces handed builder session) :
    ∃ c, Followed encoding config pieces handed builder c session := by
  induction h with
  | new hreach =>
    obtain ⟨c, hholds⟩ := hreach.holds
    exact ⟨c, hholds, ready_new encoding config, .new⟩
  | push _ hnames hrun ih =>
    obtain ⟨c, hfollowed⟩ := ih
    obtain ⟨_, hget⟩ := hnames
    obtain ⟨hlive, hmade⟩ := hfollowed.holds.ropes hget
    exact hfollowed.push hlive hmade (hfollowed.holds.store ▸ hrun)
  | pushBytes _ _ hbytes hrun ih =>
    obtain ⟨c, hfollowed⟩ := ih
    rw [hfollowed.holds.store] at hbytes
    obtain ⟨c', rfl, hle, hlive, hscanned⟩ := Rope.wf_ofBytes.of_run hbytes
    exact (hfollowed.mono hle).push hlive hscanned.made_all hrun
  | perform _ ih =>
    obtain ⟨c, hholds, hready, hfeeds⟩ := ih
    obtain ⟨c', hle, hholds'⟩ := hholds.perform fun _ _ => trivial
    exact ⟨c', hholds', hready.mono hle, hfeeds⟩
  | reveal _ hget hchild ih =>
    obtain ⟨c, hholds, hready, hfeeds⟩ := ih
    exact ⟨c, hholds.reveal hget hchild _, hready, hfeeds⟩
  | build _ hrun ih =>
    obtain ⟨c, hfollowed⟩ := ih
    rw [hfollowed.holds.store] at hrun
    obtain ⟨c', rfl, hle, hlive, hmade, -⟩ := hfollowed.build hrun
    have hfollowed' := hfollowed.mono hle
    exact ⟨c', hfollowed'.holds.setRope hlive hmade _, hfollowed'.ready, hfollowed'.feeds⟩

/-- The ropes handed on are those that were appended to the forest. -/
theorem Builder.Fed.appended (h : Fed encoding config pieces handed builder session) :
    AppendedAll encoding config handed builder.bare := by
  induction h with
  | new => exact .new
  | push _ _ hrun ih => exact ih.push hrun
  | pushBytes _ _ _ hrun ih => exact ih.push hrun
  | perform _ ih | reveal _ _ _ ih | build _ _ ih => exact ih

/-! ## Runs -/

/-- A push that keeps the ropes handed on. -/
def Builder.feed (fed : List Rope × Builder) (piece : Rope) : RopeM (List Rope × Builder) := do
  return (fed.1 ++ fed.2.hands piece, ← fed.2.push piece)

theorem Builder.Fed.foldlM (h : Fed encoding config pieces handed builder session)
    (hnames : ∀ piece ∈ more, session.Names piece)
    (hrun : more.foldlM feed (handed, builder) session.store = .ok (handed', builder') store) :
    Fed encoding config (pieces ++ more) handed' builder' { session with store } := by
  induction more generalizing pieces handed builder session with
  | nil =>
    cases hrun
    rwa [List.append_nil]
  | cons piece more ih =>
    obtain ⟨hpiece, hmore⟩ := List.forall_mem_cons.mp hnames
    obtain ⟨⟨next, builder₁⟩, store₁, hfeed, hrun⟩ := RopeM.exists_of_run_bind hrun
    obtain ⟨_, _, hpush, hfeed⟩ := RopeM.exists_of_run_bind hfeed
    cases hfeed
    have hrest := ih (h.push hpiece hpush)
    rw [← List.singleton_append, ← List.append_assoc]
    exact hrest hmore hrun

/-- A builder that was fed named ropes, and what comes of a computation on it. -/
theorem Session.Reachable.exists_fed {β : Type} {names : List String} {b : β}
    {k : List Rope → List Rope × Builder → RopeM β} (h : session.Reachable fun _ => True)
    (hends : (names.mapM session.ropes.get?).map (fun pieces =>
      (pieces.foldlM Builder.feed ([], .new encoding config) >>= k pieces).outcome session.store) =
        some (.ok b)) :
    ∃ (pieces handed : List Rope) (builder : Builder) (session' : Session),
      Builder.Fed encoding config pieces handed builder session' ∧
      (k pieces (handed, builder)).outcome session'.store = .ok b := by
  obtain ⟨pieces, hpieces, hends⟩ := Option.map_eq_some_iff.mp hends
  obtain ⟨store', hrun⟩ := RopeM.outcome_eq_ok_iff.mp hends
  obtain ⟨⟨handed, builder⟩, store, hfold, hrun⟩ := RopeM.exists_of_run_bind hrun
  have hfed := (Builder.Fed.new h).foldlM (Session.names_of_mapM hpieces) hfold
  exact ⟨pieces, handed, builder, _, hfed, RopeM.outcome_eq_ok_iff.mpr ⟨store', hrun⟩⟩

/-! ## Counting -/

/-- The forest counts the ropes handed on in binary, and so what is built is no deeper than they and
the piece held back make necessary above the deepest piece. -/
structure Builder.Tallies (pieces handed : List Rope) (builder : Builder) (store : Store) : Prop
    extends Builder.Counter pieces handed builder.forest where
  built_le : ∀ rope store', builder.build store = .ok rope store' → ∀ bound,
    (∀ piece ∈ pieces, piece.depth ≤ bound) →
      rope.depth ≤ bound + Nat.clog 2 (handed ++ builder.tail?.toList).length
  built_of_leaves : ∀ rope store', builder.build store = .ok rope store' →
    (∀ piece ∈ pieces, piece.isLeaf = true) →
      rope.depth ≤ Nat.clog 2 (handed ++ builder.tail?.toList).length

theorem Rope.depth_of_isLeaf {rope : Rope} (h : rope.isLeaf = true) : rope.depth = 0 := by
  cases rope with
  | leaf => rfl
  | join | view => cases h

/-- Unless joins are left as they are, the forest of a builder is a binary counter of the ropes that
were appended to it. -/
theorem Builder.Fed.tallies (h : Fed encoding config pieces handed builder session)
    (hstrategy : config.rebalance ≠ .never) :
    AppendedAll encoding config handed builder.bare ∧
      Tallies pieces handed builder session.store := by
  obtain ⟨c, hfollowed⟩ := h.followed
  have hfeeds := hfollowed.feeds
  have hbuilt {rope : Rope} {store : Store} {bound : Nat}
      (hrun : builder.build session.store = .ok rope store)
      (hbound : ∀ piece ∈ pieces, piece.depth ≤ bound) :
      rope.depth ≤ bound + Nat.clog 2 (handed ++ builder.tail?.toList).length := by
    rw [hfollowed.holds.store] at hrun
    obtain ⟨_, -, -, -, -, hbuilt⟩ := hfollowed.build hrun
    exact hfeeds.depth_le (fun _ hmade => hmade.wf) hstrategy hbuilt hbound
  refine ⟨h.appended, hfeeds.counter (fun _ hmade => hmade.wf) hstrategy,
    fun _ _ hrun _ => hbuilt hrun, ?_⟩
  intro rope store hrun hleaves
  have hle := hbuilt hrun fun piece hmem => Nat.le_of_eq (Rope.depth_of_isLeaf (hleaves piece hmem))
  rwa [Nat.zero_add] at hle

/-- A chain that is not balanced is rebuilt before it is counted. Two letters are merged and held
back, and make a level more in the end. -/
theorem tallies_chain :
    ∃ (pieces handed : List Rope) (builder : Builder) (session : Session) (rope : Rope)
      (store : Store), Builder.Fed .utf8 { smallConcatBytes := 2 } pieces handed builder session ∧
      ({ smallConcatBytes := 2 } : Config).rebalance ≠ .never ∧
      Builder.AppendedAll .utf8 { smallConcatBytes := 2 } handed builder.bare ∧
      builder.Tallies pieces handed session.store ∧
      builder.build session.store = .ok rope store ∧ pieces.map Rope.depth = [4, 0, 0, 0, 0] ∧
      builder.forest.map (fun tree => (tree.count, tree.rope.depth)) = [(1, 0), (2, 4)] ∧
      (handed ++ builder.tail?.toList).length = 4 ∧ rope.depth = 5 := by
  let session : Session := Session.empty.performAll [
    .make (.text "a") (some "a"), .make (.chain "a" "a" false ⟨1⟩ 4) (some "chain"),
    .make (.text "word") (some "word")]
  have h : session.Reachable (fun _ => True) :=
    Session.Reachable.empty.performAll fun _ _ _ _ => trivial
  have hends : (["chain", "word", "word", "a", "a"].mapM session.ropes.get?).map (fun pieces =>
      (pieces.foldlM Builder.feed ([], .new .utf8 { smallConcatBytes := 2 }) >>= fun fed => do
        let rope ← fed.2.build
        return (pieces.map Rope.depth,
          fed.2.forest.map (fun tree => (tree.count, tree.rope.depth)),
          (fed.1 ++ fed.2.tail?.toList).length, rope.depth)).outcome session.store) =
      some (.ok ([4, 0, 0, 0, 0], [(1, 0), (2, 4)], 4, 5)) := by
    decide +kernel
  obtain ⟨pieces, handed, builder, session', hfed, hends⟩ := h.exists_fed hends
  obtain ⟨store', hends⟩ := RopeM.outcome_eq_ok_iff.mp hends
  obtain ⟨rope, store, hrun, hends⟩ := RopeM.exists_of_run_bind hends
  obtain ⟨hends, -⟩ := EStateM.Result.ok.inj hends
  simp only [Prod.mk.injEq] at hends
  obtain ⟨happended, htallies⟩ := hfed.tallies nofun
  exact ⟨pieces, handed, builder, session', rope, store, hfed, nofun, happended, htallies, hrun,
    hends⟩

/-! ## Foretelling -/

/-- A builder says how deep the rope will be that it builds, but for the piece held back. -/
theorem Builder.Fed.foretells (h : Fed encoding config pieces handed builder session) :
    Foretells builder session.store := by
  obtain ⟨c, hfollowed⟩ := h.followed
  rw [hfollowed.holds.store]
  exact hfollowed.feeds.foretells_of_ready Made.family_all hfollowed.ready
    fun _ hscanned => hscanned.made_all

/-- A letter is held back: without it the rope has one level, and with it two. -/
theorem foretells_letter :
    ∃ (pieces handed : List Rope) (builder : Builder) (session : Session) (bare rope : Rope)
      (store store' : Store),
      Builder.Fed .utf8 { smallConcatBytes := 2 } pieces handed builder session ∧
      builder.Foretells session.store ∧ builder.bare.build session.store = .ok bare store ∧
      builder.build store = .ok rope store' ∧ builder.depth = 1 ∧ bare.depth = 1 ∧
      rope.depth = 2 := by
  let session : Session := Session.empty.performAll [
    .make (.text "a") (some "a"), .make (.text "word") (some "word")]
  have h : session.Reachable (fun _ => True) :=
    Session.Reachable.empty.performAll fun _ _ _ _ => trivial
  have hends : (["word", "word", "a"].mapM session.ropes.get?).map (fun pieces =>
      (pieces.foldlM Builder.feed ([], .new .utf8 { smallConcatBytes := 2 }) >>= fun fed => do
        let bare ← fed.2.bare.build
        let rope ← fed.2.build
        return (fed.2.depth, bare.depth, rope.depth)).outcome session.store) =
      some (.ok (1, 1, 2)) := by
    decide +kernel
  obtain ⟨pieces, handed, builder, session', hfed, hends⟩ := h.exists_fed hends
  obtain ⟨store'', hends⟩ := RopeM.outcome_eq_ok_iff.mp hends
  obtain ⟨bare, store, hbare, hends⟩ := RopeM.exists_of_run_bind hends
  obtain ⟨rope, store', hrun, hends⟩ := RopeM.exists_of_run_bind hends
  obtain ⟨hends, -⟩ := EStateM.Result.ok.inj hends
  simp only [Prod.mk.injEq] at hends
  exact ⟨pieces, handed, builder, session', bare, rope, store, store', hfed, hfed.foretells, hbare,
    hrun, hends⟩

/-! ## Merging -/

/-- Small pieces are merged with their neighbours as far as they can be before they are appended to
the forest, and nothing else is. -/
theorem Builder.Fed.coalesces (h : Fed encoding config pieces handed builder session) :
    AppendedAll encoding config handed builder.bare ∧
      Coalesces config.smallConcatBytes pieces handed builder.tail? := by
  obtain ⟨_, hfollowed⟩ := h.followed
  exact ⟨h.appended, hfollowed.feeds.coalesced⟩

/-- Three octets at most are merged: a letter and two letters with nothing between them are, but not
the letter after them, the word, or letters under different encodings. -/
theorem coalesces_letters :
    ∃ (pieces handed : List Rope) (builder : Builder) (session : Session),
      Builder.Fed .utf8 { smallConcatBytes := 3 } pieces handed builder session ∧
      Builder.AppendedAll .utf8 { smallConcatBytes := 3 } handed builder.bare ∧
      Builder.Coalesces 3 pieces handed builder.tail? ∧
      pieces.map Rope.content =
        [[97], [], [98, 99], [97], [119, 111, 114, 100], [233], [97]] ∧
      handed.map Rope.content = [[97, 98, 99], [97], [119, 111, 114, 100], [233]] ∧
      builder.tail?.map Rope.content = some [97] := by
  let session : Session := Session.empty.performAll [
    .make (.text "a") (some "a"), .make (.text "") (some "nothing"),
    .make (.text "bc") (some "bc"), .make (.text "word") (some "word"),
    .make (.bytes #[233] .latin1) (some "e")]
  have h : session.Reachable (fun _ => True) :=
    Session.Reachable.empty.performAll fun _ _ _ _ => trivial
  have hends : (["a", "nothing", "bc", "a", "word", "e", "a"].mapM session.ropes.get?).map
      (fun pieces =>
        (pieces.foldlM Builder.feed ([], .new .utf8 { smallConcatBytes := 3 }) >>= fun fed => do
          return (pieces.map Rope.content, fed.1.map Rope.content,
            fed.2.tail?.map Rope.content)).outcome session.store) =
      some (.ok ([[97], [], [98, 99], [97], [119, 111, 114, 100], [233], [97]],
        [[97, 98, 99], [97], [119, 111, 114, 100], [233]], some [97])) := by
    decide +kernel
  obtain ⟨pieces, handed, builder, session', hfed, hends⟩ := h.exists_fed hends
  obtain ⟨store, hends⟩ := RopeM.outcome_eq_ok_iff.mp hends
  obtain ⟨hends, -⟩ := EStateM.Result.ok.inj hends
  simp only [Prod.mk.injEq] at hends
  obtain ⟨happended, hcoalesces⟩ := hfed.coalesces
  exact ⟨pieces, handed, builder, session', hfed, happended, hcoalesces, hends⟩

end ByteRope
