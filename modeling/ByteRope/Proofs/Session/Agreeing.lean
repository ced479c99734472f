import ByteRope.Proofs.Builder.Agreeing
import ByteRope.Proofs.Session.Holding

/-!
# Commands side by side

`SessionM.Agree` says of a computation on sessions that it ends alike, with the same names for the
same ropes and builders, over two stores in which equally many nodes have been named. All commands
but two answer alike: where the octets of a rope are cut into chunks, and which ropes remember their
content, depends on what has been asked before (`Reply.Agrees`).
-/

namespace ByteRope

open SessionM

variable {t t' : Twins} {α β : Type} {ropes : Registers Rope} {builders : Registers Builder}

/-! ## Names -/

/-- Everything that has a name is in use on both sides. -/
structure Twins.Accounts (t : Twins) (ropes : Registers Rope) (builders : Registers Builder) :
    Prop where
  ropes : ∀ {name rope}, ropes.get? name = some rope → t.Live rope
  builders : ∀ {name builder}, builders.get? name = some builder → builder.Twin t

namespace Twins.Accounts

theorem mono (h : t.Accounts ropes builders) (hle : t ≤ t') : t'.Accounts ropes builders :=
  ⟨fun hget => (h.ropes hget).mono hle, fun hget => (h.builders hget).mono hle⟩

theorem setRope (h : t.Accounts ropes builders) {rope : Rope} (hlive : t.Live rope)
    (name : String) : t.Accounts (ropes.set name rope) builders where
  ropes hget := by
    rcases Registers.get?_set_cases hget with rfl | hold
    · exact hlive
    · exact h.ropes hold
  builders := h.builders

theorem eraseRope (h : t.Accounts ropes builders) (name : String) :
    t.Accounts (ropes.erase name) builders :=
  ⟨fun hget => h.ropes (Registers.get?_of_get?_erase hget), h.builders⟩

theorem setBuilder (h : t.Accounts ropes builders) {builder : Builder} (htwin : builder.Twin t)
    (name : String) : t.Accounts ropes (builders.set name builder) where
  ropes := h.ropes
  builders hget := by
    rcases Registers.get?_set_cases hget with rfl | hold
    · exact htwin
    · exact h.builders hold

theorem eraseBuilder (h : t.Accounts ropes builders) (name : String) :
    t.Accounts ropes (builders.erase name) :=
  ⟨h.ropes, fun hget => h.builders (Registers.get?_of_get?_erase hget)⟩

end Twins.Accounts

/-! ## Computations -/

namespace SessionM

/-- The computation ends with the first value over the left store and with the second over the right
one, which `R` relates, or with one failure, and with the same names for the same things. -/
def Relate (t : Twins) (m : SessionM α) (R : α → α → Twins → Prop) : Prop :=
  ∀ ropes builders, t.Accounts ropes builders → ∃ t' ropes' builders', t ≤ t' ∧
    t'.Accounts ropes' builders' ∧
    ((∃ a a', m ⟨t.left.store, ropes, builders⟩ = .ok a ⟨t'.left.store, ropes', builders'⟩ ∧
        m ⟨t.right.store, ropes, builders⟩ = .ok a' ⟨t'.right.store, ropes', builders'⟩ ∧
        R a a' t') ∨
      ∃ failure,
        m ⟨t.left.store, ropes, builders⟩ = .error failure ⟨t'.left.store, ropes', builders'⟩ ∧
        m ⟨t.right.store, ropes, builders⟩ = .error failure ⟨t'.right.store, ropes', builders'⟩)

theorem run_onStore_bind {computation : RopeM α} {a : α} {store store' : Store}
    (h : computation store = .ok a store') (f : α → SessionM β) (ropes : Registers Rope)
    (builders : Registers Builder) :
    (onStore computation >>= f) ⟨store, ropes, builders⟩ = f a ⟨store', ropes, builders⟩ := by
  rw [run_bind, onStore]
  simp only [h]

/-- The computation ends with one value, of which `Q` holds, or with one failure. -/
def Agree (t : Twins) (m : SessionM α) (Q : α → Twins → Prop) : Prop :=
  Relate t m fun a a' t' => a' = a ∧ Q a t'

namespace Agree

variable {m : SessionM α} {f : α → SessionM β} {Q : α → Twins → Prop} {R : β → β → Twins → Prop}

theorem relate {R : α → α → Twins → Prop} (h : Agree t m Q) (hR : ∀ a t', Q a t' → R a a t') :
    Relate t m R := by
  intro ropes builders hnames
  obtain ⟨t', ropes', builders', hle, hnames', hends⟩ := h ropes builders hnames
  refine ⟨t', ropes', builders', hle, hnames', hends.imp_left ?_⟩
  rintro ⟨a, _, hleft, hright, rfl, hQ⟩
  exact ⟨_, _, hleft, hright, hR _ t' hQ⟩

theorem pure {a : α} (h : Q a t) : Agree t (Pure.pure a) Q := fun ropes builders hnames =>
  ⟨t, ropes, builders, t.le_refl, hnames, .inl ⟨a, a, rfl, rfl, rfl, h⟩⟩

theorem throw {failure : Failure} : Agree t (throw failure : SessionM α) Q :=
  fun ropes builders hnames =>
    ⟨t, ropes, builders, t.le_refl, hnames, .inr ⟨failure, rfl, rfl⟩⟩

theorem bind_relate (hm : Agree t m Q) (hf : ∀ a t', t ≤ t' → Q a t' → Relate t' (f a) R) :
    Relate t (m >>= f) R := by
  intro ropes builders hnames
  simp only [run_bind]
  obtain ⟨t', ropes', builders', hle, hnames', hends⟩ := hm ropes builders hnames
  rcases hends with ⟨a, _, hleft, hright, rfl, hQ⟩ | ⟨failure, hleft, hright⟩
  · simp only [hleft, hright]
    obtain ⟨t'', ropes'', builders'', hle', hnames'', hends⟩ :=
      hf _ t' hle hQ ropes' builders' hnames'
    exact ⟨t'', ropes'', builders'', Twins.le_trans hle hle', hnames'', hends⟩
  · simp only [hleft, hright]
    exact ⟨t', ropes', builders', hle, hnames', .inr ⟨failure, rfl, rfl⟩⟩

theorem bind {R : β → Twins → Prop} (hm : Agree t m Q)
    (hf : ∀ a t', t ≤ t' → Q a t' → Agree t' (f a) R) : Agree t (m >>= f) R :=
  hm.bind_relate hf

theorem onStore {computation : RopeM α} (h : RopeM.Agree t computation Q) :
    Agree t (onStore computation) Q := by
  intro ropes builders hnames
  unfold SessionM.onStore
  rcases h with ⟨a, t', hle, hleft, hright, hQ⟩ | ⟨fault, t', hle, hleft, hright⟩
  · refine ⟨t', ropes, builders, hle, hnames.mono hle, .inl ⟨a, a, ?_, ?_, rfl, hQ⟩⟩
    · simp only [hleft]
    · simp only [hright]
  · refine ⟨t', ropes, builders, hle, hnames.mono hle, .inr ⟨.fault fault, ?_, ?_⟩⟩
    · simp only [hleft]
    · simp only [hright]

theorem careful {computation : RopeM (Except Refusal α)}
    (h : RopeM.Agree t computation fun result t' => ∀ a, result = .ok a → Q a t') :
    Agree t (careful computation) Q := by
  apply (onStore h).bind
  rintro (refusal | a) t' - hresult
  · exact throw
  · exact pure (hresult a rfl)

/-- An answer to a question about the store. -/
theorem answer {computation : RopeM α} (h : RopeM.Agree t computation Q) (reply : α → β) :
    Agree t (SessionM.onStore computation >>= fun a => Pure.pure (reply a)) fun _ _ => True :=
  (onStore h).bind fun _ _ _ _ => pure trivial

theorem rope (name : String) : Agree t (rope name) fun rope t' => t'.Live rope := by
  intro ropes builders hnames
  refine ⟨t, ropes, builders, t.le_refl, hnames, ?_⟩
  simp only [run_rope]
  cases hget : ropes.get? name with
  | some rope => exact .inl ⟨rope, rope, rfl, rfl, rfl, hnames.ropes hget⟩
  | none => exact .inr ⟨_, rfl, rfl⟩

theorem builder (name : String) : Agree t (builder name) fun builder t' => builder.Twin t' := by
  intro ropes builders hnames
  refine ⟨t, ropes, builders, t.le_refl, hnames, ?_⟩
  simp only [run_builder]
  cases hget : builders.get? name with
  | some builder => exact .inl ⟨builder, builder, rfl, rfl, rfl, hnames.builders hget⟩
  | none => exact .inr ⟨_, rfl, rfl⟩

theorem keepRope {rope : Rope} (h : t.Live rope) (name : String) :
    Agree t (keepRope name rope) fun _ _ => True := fun ropes builders hnames =>
  ⟨t, ropes.set name rope, builders, t.le_refl, hnames.setRope h name,
    .inl ⟨(), (), rfl, rfl, rfl, trivial⟩⟩

theorem keepBuilder {builder : Builder} (h : builder.Twin t) (name : String) :
    Agree t (keepBuilder name builder) fun _ _ => True := fun ropes builders hnames =>
  ⟨t, ropes, builders.set name builder, t.le_refl, hnames.setBuilder h name,
    .inl ⟨(), (), rfl, rfl, rfl, trivial⟩⟩

theorem forgetBuilder (name : String) : Agree t (forgetBuilder name) fun _ _ => True :=
  fun ropes builders hnames =>
    ⟨t, ropes, builders.erase name, t.le_refl, hnames.eraseBuilder name,
      .inl ⟨(), (), rfl, rfl, rfl, trivial⟩⟩

theorem takeBuilder (name : String) :
    Agree t (takeBuilder name) fun builder t' => builder.Twin t' :=
  (builder name).bind fun _ _ _ htwin => (forgetBuilder name).bind fun _ _ hle _ =>
    pure (htwin.mono hle)

theorem builderReply (builder : Builder) : Agree t (builderReply builder) fun _ _ => True := by
  refine answer (Q := fun _ _ => True) ?_ _
  cases h : builder.byteLen with
  | ok total => exact .pure trivial
  | error fault => exact .throw

theorem changeBuilder {name : String} {change : Builder → RopeM Builder}
    (h : ∀ builder t', t ≤ t' → builder.Twin t' →
      RopeM.Agree t' (change builder) fun builder' t'' => builder'.Twin t'') :
    Agree t (changeBuilder name change) fun _ _ => True :=
  (takeBuilder name).bind fun builder t₁ hle htwin =>
    (onStore (h builder t₁ hle htwin)).bind fun changed _ _ hchanged =>
      (builderReply changed).bind fun _ _ hle₃ _ =>
        (keepBuilder (hchanged.mono hle₃) name).bind fun _ _ _ _ => pure trivial

/-- An operation on a rope with a name. -/
theorem ofRope {operation : Rope → RopeM Rope} (name : String)
    (h : ∀ {t : Twins} {rope : Rope}, t.Live rope →
      RopeM.Agree t (operation rope) fun made t' => t'.Live made) :
    Agree t (SessionM.rope name >>= fun rope => SessionM.onStore (operation rope))
      fun made t' => t'.Live made :=
  (rope name).bind fun _ _ _ hrope => onStore (h hrope)

/-- An operation on a rope with a name that can be refused. -/
theorem ofRope? {operation : Rope → RopeM (Except Refusal Rope)} (name : String)
    (h : ∀ {t : Twins} {rope : Rope}, t.Live rope →
      RopeM.Agree t (operation rope) fun result t' => ∀ made, result = .ok made → t'.Live made) :
    Agree t (SessionM.rope name >>= fun rope => SessionM.careful (operation rope))
      fun made t' => t'.Live made :=
  (rope name).bind fun _ _ _ hrope => careful (h hrope)

/-- A question about a rope with a name. -/
theorem askRope {question : Rope → RopeM α} {Q : Rope → α → Twins → Prop} (name : String)
    (h : ∀ {t : Twins} {rope : Rope}, t.Live rope → RopeM.Agree t (question rope) (Q rope))
    (reply : α → β) :
    Agree t (SessionM.rope name >>= fun rope => SessionM.onStore (question rope) >>= fun a =>
      Pure.pure (reply a)) fun _ _ => True :=
  (rope name).bind fun _ _ _ hrope => answer (h hrope) reply

end Agree

end SessionM

/-! ## Recipes -/

theorem Recipe.agree_perform (recipe : Recipe) :
    Agree t recipe.perform fun made t' => t'.Live made := by
  cases recipe with
  | bytes | text | octets | empty => exact .onStore Rope.agree_ofBytes
  | asciiOnlyLeaf => exact .onStore Rope.agree_asciiOnlyLeaf
  | validLeaf => exact .onStore Rope.agree_validLeaf
  | invalidLeaf => exact .onStore (Rope.agree_invalidLeaf _)
  | taggedLeaf => exact .onStore Rope.agree_taggedLeaf
  | copy name => exact .rope name
  | concat left right policy =>
    exact (Agree.rope left).bind fun _ _ _ hl => (Agree.rope right).bind fun _ _ hle hr =>
      .onStore (Rope.agree_concat (hl.mono hle) hr)
  | taggedJoin left right encoding range depth balanced =>
    exact (Agree.rope left).bind fun _ _ _ hl => (Agree.rope right).bind fun _ _ hle hr =>
      .onStore (Rope.agree_taggedJoin (hl.mono hle) hr range depth balanced)
  | chain name piece front policy count =>
    exact (Agree.rope name).bind fun _ _ _ hl => (Agree.rope piece).bind fun _ _ hle hr =>
      .onStore (Rope.agree_chain (hl.mono hle) hr front count)
  | slice name => exact .ofRope name Rope.agree_slice
  | slice? name => exact .ofRope? name Rope.agree_slice?
  | taggedView name => exact .ofRope name Rope.agree_taggedView
  | toSevenBit name => exact .ofRope name Rope.agree_toSevenBit
  | toSevenBit? name => exact .ofRope? name Rope.agree_toSevenBit?
  | toBinary name => exact .ofRope name Rope.agree_toBinary
  | toBinary? name => exact .ofRope? name Rope.agree_toBinary?
  | resolve name => exact .ofRope name Rope.agree_resolve
  | rebalance name => exact .ofRope name Rope.agree_rebalance
  | build name =>
    exact (Agree.takeBuilder name).bind fun _ _ _ htwin => .onStore (Builder.agree_build htwin)

/-! ## Questions -/

/-- Answers that are one but for what depends on the buffers that nodes have: chunks, which are of
the same octets one after another, and the names of the ropes that have buffers. -/
inductive Reply.Agrees : Reply → Reply → Prop
  | same {reply : Reply} : Agrees reply reply
  | chunks {found found' : Array Chunk} :
    found'.toList.flatMap (fun chunk => chunk.bytes.toList) =
      found.toList.flatMap (fun chunk => chunk.bytes.toList) →
    Agrees (.chunks found) (.chunks found')
  | names {names names' : List String} : Agrees (.names names) (.names names')

theorem Reply.Agrees.symm {reply reply' : Reply} (h : reply.Agrees reply') :
    reply'.Agrees reply := by
  cases h with
  | same => exact .same
  | chunks h => exact .chunks h.symm
  | names => exact .names

theorem Reply.Agrees.trans {reply reply' reply'' : Reply} (h : reply.Agrees reply')
    (h' : reply'.Agrees reply'') : reply.Agrees reply'' := by
  cases h with
  | same => exact h'
  | chunks h =>
    cases h' with
    | same => exact .chunks h
    | chunks h' => exact .chunks (h'.trans h)
  | names =>
    cases h' with
    | same | names => exact .names

/-- The computation answers alike. -/
def SessionM.Answers (t : Twins) (m : SessionM Reply) : Prop :=
  Relate t m fun reply reply' _ => reply.Agrees reply'

theorem SessionM.Agree.answers {m : SessionM Reply} (h : Agree t m fun _ _ => True) :
    Answers t m :=
  h.relate fun _ _ _ => .same

theorem agree_insertNamed {found : RopeSet} (h : found.Twin t) (name : String) :
    Agree t (insertNamed found name) fun found' t' => found'.Twin t' :=
  (Agree.rope name).bind fun _ _ hle hrope => .onStore (RopeSet.agree_insert (h.mono hle) hrope)

theorem agree_insertAll {found : RopeSet} (h : found.Twin t) (names : List String) :
    Agree t (names.foldlM insertNamed found) fun found' t' => found'.Twin t' := by
  induction names generalizing t found with
  | nil => exact .pure h
  | cons name names ih => exact (agree_insertNamed h name).bind fun _ _ _ hfound => ih hfound

theorem Query.answers_perform (query : Query) : Answers t query.perform := by
  cases query with
  | rope name => exact ((Agree.rope name).bind fun _ _ _ _ => .pure trivial).answers
  | flatten name => exact (Agree.askRope name Rope.agree_flatten _).answers
  | byteAt name index =>
    exact (Agree.askRope name (fun h => Rope.agree_byteAt h index) _).answers
  | byte? name index =>
    exact (Agree.askRope name (fun h => Rope.agree_byte? h index) _).answers
  | allBytes name => exact (Agree.askRope name Rope.agree_allBytes _).answers
  | chunks name =>
    refine (Agree.rope name).bind_relate fun rope t' _ hrope ropes builders hnames => ?_
    obtain ⟨found, hleft, -, hflat⟩ := Rope.chunks_eq hrope.left
    obtain ⟨found', hright, -, hflat'⟩ := Rope.chunks_eq hrope.right
    refine ⟨t', ropes, builders, t'.le_refl, hnames, .inl ⟨.chunks found, .chunks found', ?_, ?_,
      .chunks (hflat'.trans hflat.symm)⟩⟩
    · exact SessionM.run_onStore_bind hleft _ ropes builders
    · exact SessionM.run_onStore_bind hright _ ropes builders
  | copyRange name offset len =>
    refine ((Agree.rope name).bind fun _ _ _ hrope => ?_).answers
    refine (Agree.careful (Q := fun _ _ => True) ?_).bind fun _ _ _ _ => .pure trivial
    exact (Rope.agree_copyRange hrope).mono fun _ _ _ _ _ _ => trivial
  | lossyText name => exact (Agree.askRope name Rope.agree_toLossyText _).answers
  | equal left right =>
    exact ((Agree.rope left).bind fun _ _ _ hl => (Agree.rope right).bind fun _ _ hle hr =>
      .answer (Rope.agree_equal (hl.mono hle) hr) _).answers
  | sameDigest left right =>
    refine ((Agree.rope left).bind fun _ _ _ hl => (Agree.rope right).bind fun _ _ hle hr =>
      (Agree.onStore (Rope.agree_digest (hl.mono hle))).bind fun _ _ hle' _ => ?_).answers
    exact .answer (Rope.agree_digest (hr.mono hle')) _
  | sameNode left right =>
    exact ((Agree.rope left).bind fun _ _ _ _ => (Agree.rope right).bind fun _ _ _ _ =>
      .pure trivial).answers
  | countDistinct names =>
    exact ((agree_insertAll RopeSet.twin_empty names).bind fun _ _ _ _ => .pure trivial).answers
  | materialized =>
    exact fun ropes builders hnames =>
      ⟨t, ropes, builders, t.le_refl, hnames, .inl ⟨_, _, rfl, rfl, .names⟩⟩
  | builder name =>
    exact ((Agree.builder name).bind fun builder _ _ _ => .builderReply builder).answers

/-! ## Commands -/

theorem Command.answers_perform (command : Command) : Answers t command.perform := by
  cases command with
  | make recipe target? =>
    refine (recipe.agree_perform.bind fun rope t' _ hrope => ?_).answers
    cases target? with
    | none => exact .pure trivial
    | some target => exact (Agree.keepRope hrope target).bind fun _ _ _ _ => .pure trivial
  | ask query => exact query.answers_perform
  | drop name =>
    exact fun ropes builders hnames =>
      ⟨t, ropes.erase name, builders, t.le_refl, hnames.eraseRope name,
        .inl ⟨_, _, rfl, rfl, .same⟩⟩
  | newBuilder name encoding config =>
    exact ((Agree.keepBuilder (Builder.twin_new encoding config) name).bind fun _ _ _ _ =>
      .pure trivial).answers
  | pushRope name piece count =>
    refine ((Agree.rope piece).bind fun _ _ _ hpiece => ?_).answers
    exact .changeBuilder fun _ _ hle htwin =>
      Builder.agree_pushTimes htwin (hpiece.mono hle) count
  | pushBytes name content count =>
    exact (Agree.changeBuilder fun _ _ _ htwin =>
      Builder.agree_pushBytesTimes htwin content count).answers
  | copyBuilder name target =>
    refine ((Agree.builder name).bind fun builder _ _ htwin => ?_).answers
    exact (Agree.keepBuilder htwin target).bind fun _ _ _ _ => .builderReply builder

end ByteRope
