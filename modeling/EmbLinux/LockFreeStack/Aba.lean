import EmbLinux.LockFreeStack.Steps
import EmbLinux.Lib.Update

/-!
# EmbLinux — tags that wrap around

A tag has 32 bits, and every modification of a head adds 1 to it. `Tagged` says that the
tag is the number of modifications modulo `2 ^ 32`, of a head and of the value that a
waiting exchange expects.

* `aba_free` — in every state of every run, an exchange succeeds on a head that was not
  modified since its load, unless the number of modifications in between is a multiple of
  `2 ^ 32` and the index is the same again;
* `aba_at_wrap` — a `pop` that sleeps through `2 ^ 31` pairs of `pop` and `push`.

No condition is made: an exchange that succeeds on a repeated tag is a step of the runs that are
considered here, and `aba_free` says exactly when there can be one.
-/

namespace EmbLinux.LockFreeStack

variable {τ α : Type*} [DecidableEq τ] {Capacity : Nat} {s s' : State τ α} {a : Action τ α}
  {t : τ}

/-- The exchange that is next: its head, the value that it expects, and the version of the
head when that value was loaded. -/
def Pc.exchange : Pc α → Option (Head × TaggedIndex × Nat)
  | .takeCas call old version _ => some (call.takes, old, version)
  | .putCas call _ _ old version => some (call.puts, old, version)
  | _ => none

/-- No thread is about to exchange a head that was modified since its load for the
expected value: a `compare_exchange_weak` that may succeed finds the head unmodified. -/
def AbaFree (s : State τ α) : Prop :=
  ∀ t hd old version, (s.pc t).exchange = some (hd, old, version) → s.heads hd = old →
    s.version hd = version

/-- Since the load before an exchange its head was not modified, or not a multiple of
`2 ^ 32` times, or it has another index. -/
def TagsApart (s : State τ α) : Prop :=
  ∀ t hd old version, (s.pc t).exchange = some (hd, old, version) →
    s.version hd = version ∨ ¬ 2 ^ 32 ∣ s.version hd - version ∨ (s.heads hd).index ≠ old.index

-- ---------------------------------------------------------------------------
-- Tags count modifications
-- ---------------------------------------------------------------------------

/-- An index and its tag are the whole word. -/
theorem TaggedIndex.ext {x y : TaggedIndex} (hIndex : x.index = y.index) (hTag : x.tag = y.tag) :
    x = y := by
  obtain ⟨xIndex, xTag⟩ := x
  obtain ⟨yIndex, yTag⟩ := y
  simp_all

/-- The value that a loop has loaded, with the version noted with it. -/
def Pc.loaded : Pc α → Option (Head × TaggedIndex × Nat)
  | .takeNext call old version => some (call.takes, old, version)
  | .putStore call _ _ old version => some (call.puts, old, version)
  | pc => pc.exchange

/-- A tag is the number of modifications modulo `2 ^ 32`, in a head and in every copy of one. -/
structure Tagged (s : State τ α) : Prop where
  head : ∀ hd, (s.heads hd).tag = s.version hd % tagModulus
  loaded : ∀ t hd old version, (s.pc t).loaded = some (hd, old, version) →
    version ≤ s.version hd ∧ old.tag = version % tagModulus

/-- What is compared was loaded. -/
theorem Pc.loaded_of_exchange {pc : Pc α} {x : Head × TaggedIndex × Nat}
    (h : pc.exchange = some x) : pc.loaded = some x := by
  cases pc <;> simp_all [Pc.exchange, Pc.loaded]

omit [DecidableEq τ] in
/-- No modification. -/
theorem tagged_init : Tagged (init τ α Capacity) := by
  refine ⟨?_, ?_⟩
  · intro hd
    cases hd <;> rfl
  · intro t hd old version hLoaded
    simp [init, Pc.loaded, Pc.exchange] at hLoaded

/-- A thread moves and the heads stay: it has loaded the current head, or nothing new. -/
theorem Tagged.move {pc : Pc (Numbered α)} (h : Tagged s)
    (hPc : s'.pc = Function.update s.pc t pc) (hHeads : s'.heads = s.heads)
    (hVersion : s'.version = s.version)
    (hLoaded : ∀ hd old version, pc.loaded = some (hd, old, version) →
      old = s.heads hd ∧ version = s.version hd ∨
        (s.pc t).loaded = some (hd, old, version)) : Tagged s' := by
  refine ⟨?_, ?_⟩
  · rw [hHeads, hVersion]
    exact h.head
  · intro u hd old version hu
    rw [hVersion]
    rcases update_cases hPc u with ⟨-, hHere⟩ | ⟨-, hOther⟩
    · rw [hHere] at hu
      rcases hLoaded hd old version hu with ⟨rfl, rfl⟩ | hOld
      · exact ⟨Nat.le_refl _, h.head hd⟩
      · exact h.loaded t hd old version hOld
    · rw [hOther] at hu
      exact h.loaded u hd old version hu

/-- A successful exchange. -/
theorem Tagged.exchange {pc : Pc (Numbered α)} {hd : Head} {index : Nat} (h : Tagged s)
    (hPc : s'.pc = Function.update s.pc t pc) (hNone : pc.loaded = none)
    (hHeads : s'.heads = (s.exchange hd index).heads)
    (hVersion : s'.version = (s.exchange hd index).version) : Tagged s' := by
  have hLe : ∀ hd', s.version hd' ≤ s'.version hd' := by
    intro hd'
    rcases update_cases hVersion hd' with ⟨rfl, hHere⟩ | ⟨-, hOther⟩
    · rw [hHere]
      exact Nat.le_succ _
    · exact Nat.le_of_eq hOther.symm
  refine ⟨?_, ?_⟩
  · intro hd'
    rcases update_cases hVersion hd' with ⟨rfl, hHere⟩ | ⟨hne, hOther⟩
    · rw [hHere, hHeads]
      simp only [State.exchange, Function.update_self, h.head hd', Nat.mod_add_mod]
    · rw [hOther, hHeads]
      simp only [State.exchange, Function.update_of_ne hne]
      exact h.head hd'
  · intro u hd' old version hu
    rcases update_cases hPc u with ⟨-, hHere⟩ | ⟨-, hOther⟩
    · rw [hHere, hNone] at hu
      exact absurd hu (by simp)
    · rw [hOther] at hu
      obtain ⟨hLoaded, hTag⟩ := h.loaded u hd' old version hu
      exact ⟨Nat.le_trans hLoaded (hLe hd'), hTag⟩

/-- An exchange makes the tag one more, and so is the number. -/
theorem tagged_effect (h : Tagged s) (he : Effect s t s') : Tagged s' := by
  cases he with
  | callPop | callPush | refuse | moveOut | moveIn | clear =>
    refine h.move (t := t) rfl rfl rfl ?_
    intro hd old version hNone
    simp [Pc.loaded, Pc.exchange] at hNone
  | load | reload =>
    refine h.move (t := t) rfl rfl rfl ?_
    intro hd old version hNew
    simp only [Pc.loaded, Option.some.injEq, Prod.mk.injEq] at hNew
    obtain ⟨rfl, rfl, rfl⟩ := hNew
    exact Or.inl ⟨rfl, rfl⟩
  | next hpc | store hpc =>
    refine h.move (t := t) rfl rfl rfl ?_
    intro hd old version hSame
    rw [hpc]
    exact Or.inr hSame
  | takePop hpc hHead | takePush hpc hHead | putPop hpc hHead | putPush hpc hHead =>
    exact h.exchange (t := t) rfl (by simp [Pc.loaded, Pc.exchange]) rfl rfl

/-- In every state. -/
theorem tagged_reachable (h : (system τ α Capacity).Reachable s) : Tagged s := by
  refine h.invariant tagged_init ?_
  intro s a s' _ hTagged _ hst
  obtain ⟨t, he, -⟩ := step_effect hst
  exact tagged_effect hTagged he

omit [DecidableEq τ] in
/-- Two tags agree if and only if the modifications between them are a multiple of
`2 ^ 32`. -/
theorem Tagged.tag_eq_iff (h : Tagged s) {hd : Head} {old : TaggedIndex} {version : Nat}
    (hExchange : (s.pc t).exchange = some (hd, old, version)) :
    (s.heads hd).tag = old.tag ↔ 2 ^ 32 ∣ s.version hd - version := by
  obtain ⟨hLe, hTag⟩ := h.loaded t hd old version (Pc.loaded_of_exchange hExchange)
  rw [h.head, hTag]
  unfold tagModulus
  omega

/-- **ABA freedom with 32-bit tags**, for every capacity, any number of threads and runs of
any length: an exchange that succeeds finds its head unmodified in exactly those states in
which no exchange has slept through a multiple of `2 ^ 32` modifications and found its
index again. -/
theorem aba_free (h : (system τ α Capacity).Reachable s) : AbaFree s ↔ TagsApart s := by
  have hTagged := tagged_reachable h
  constructor
  · intro hFree t hd old version hExchange
    by_cases hSame : s.heads hd = old
    · exact Or.inl (hFree t hd old version hExchange hSame)
    · refine Or.inr ?_
      rw [← hTagged.tag_eq_iff hExchange]
      by_cases hTag : (s.heads hd).tag = old.tag
      · exact Or.inr fun hIndex => hSame (TaggedIndex.ext hIndex hTag)
      · exact Or.inl hTag
  · intro hApart t hd old version hExchange hSame
    rcases hApart t hd old version hExchange with hVersion | hMultiple | hIndex
    · exact hVersion
    · exact absurd ((hTagged.tag_eq_iff hExchange).mp (by rw [hSame])) hMultiple
    · exact absurd (by rw [hSame]) hIndex

/-- No exchange of a run so far has slept through as many modifications. -/
theorem tagsApart_of_few (h : (system τ α Capacity).Reachable s)
    (hFew : ∀ hd, s.version hd < 2 ^ 32) : TagsApart s := by
  intro t hd old version hExchange
  obtain ⟨hLe, -⟩ := (tagged_reachable h).loaded t hd old version
    (Pc.loaded_of_exchange hExchange)
  have hSmall := hFew hd
  omega

/-- A `pop` that is about to exchange `m_head`, after a `push`. -/
theorem aba_free_two :
    ∃ s : State Bool Nat, (system Bool Nat 1).Reachable s ∧
      s.pc false = .takeCas .pop ⟨0, 1⟩ 1 kNullIndex ∧ AbaFree s := by
  obtain ⟨s, hs, hpc, hHead, hFree⟩ := System.exists_reachable_of_exec
    (S := system Bool Nat 1)
    (p := fun s => s.pc false = .takeCas .pop ⟨0, 1⟩ 1 kNullIndex ∧ s.version .head < 2 ^ 32 ∧
      s.version .freeHead < 2 ^ 32)
    ([Action.callPush true 7] ++ List.replicate 7 (Action.run true false) ++
      [Action.callPop false] ++ List.replicate 2 (Action.run false false))
    (by decide +kernel)
  refine ⟨s, hs, hpc, (aba_free hs).mpr (tagsApart_of_few hs ?_)⟩
  intro hd
  cases hd
  · exact hHead
  · exact hFree

-- ---------------------------------------------------------------------------
-- A stalled `pop`
-- ---------------------------------------------------------------------------

/-- The first loop of a call that nobody disturbs. -/
theorem takes_undisturbed (call : Call (Numbered α)) (h : (system τ α Capacity).Reachable s)
    (hpc : s.pc t = .takeLoad call) (hNode : (s.heads call.takes).index ≠ kNullIndex) :
    ∃ s', (system τ α Capacity).Reachable s' ∧
      s'.pc = Function.update s.pc t (.data call (s.heads call.takes).index) ∧
      s'.heads = (s.exchange call.takes (s.next (s.heads call.takes).index)).heads ∧
      s'.version = (s.exchange call.takes (s.next (s.heads call.takes).index)).version ∧
      s'.next = s.next := by
  have h1 := (Effect.load (t := t) (by rw [hpc]; rfl) hNode).reachable h
  have h2 := (Effect.next (t := t) (by exact Function.update_self ..)).reachable h1
  cases call with
  | pop =>
    have h3 := (Effect.takePop (t := t) (by exact Function.update_self ..) (by rfl)).reachable h2
    exact ⟨_, h3, by simp [State.setPc, State.exchange, Call.takes], rfl, rfl, rfl⟩
  | push value =>
    have h3 := (Effect.takePush (t := t) (by exact Function.update_self ..) (by rfl)).reachable h2
    exact ⟨_, h3, by simp [State.setPc, State.exchange, Call.takes], rfl, rfl, rfl⟩

/-- And the second. -/
theorem puts_undisturbed (call : Call (Numbered α)) {node : Nat}
    {result : Option (Numbered α)} (h : (system τ α Capacity).Reachable s)
    (hpc : s.pc t = .putLoad call node result) :
    ∃ s' last, (system τ α Capacity).Reachable s' ∧
      s'.pc = Function.update s.pc t (.idle last) ∧
      s'.heads = (s.exchange call.puts node).heads ∧
      s'.version = (s.exchange call.puts node).version ∧
      s'.next = Function.update s.next node (s.heads call.puts).index := by
  have h1 := (Effect.reload (t := t) (by rw [hpc]; exact ⟨rfl, rfl, rfl⟩)).reachable h
  have h2 := (Effect.store (t := t) (by exact Function.update_self ..)).reachable h1
  cases call with
  | pop =>
    have h3 := (Effect.putPop (t := t) (by exact Function.update_self ..) (by rfl)).reachable h2
    exact ⟨_, some (.popped result), h3, by simp [State.setPc, State.exchange], rfl, rfl, rfl⟩
  | push value =>
    have h3 := (Effect.putPush (t := t) (by exact Function.update_self ..) (by rfl)).reachable h2
    exact ⟨_, some (.pushed true), h3, by simp [State.setPc, State.exchange], rfl, rfl, rfl⟩

/-- A `pop` and a `push` of thread `t` that nobody disturbs: they move the front node of
`m_head` to `m_free_head` and back, so each head is modified twice. -/
theorem pair_undisturbed (value : α) {last : Option (Ret (Numbered α))}
    (h : (system τ α Capacity).Reachable s) (hIdle : s.pc t = .idle last) {node tag freeTag : Nat}
    (hHead : s.heads .head = ⟨node, tag⟩) (hFree : s.heads .freeHead = ⟨kNullIndex, freeTag⟩)
    (hNode : node ≠ kNullIndex) (hNext : s.next node = kNullIndex) :
    ∃ s' last', (system τ α Capacity).Reachable s' ∧
      s'.pc = Function.update s.pc t (.idle last') ∧
      s'.heads .head = ⟨node, (tag + 2) % tagModulus⟩ ∧
      s'.heads .freeHead = ⟨kNullIndex, (freeTag + 2) % tagModulus⟩ ∧
      s'.next node = kNullIndex ∧ s'.version .head = s.version .head + 2 := by
  have h1 := (Effect.callPop hIdle).reachable h
  obtain ⟨s₂, h2, hPc2, hHeads2, hVersion2, hNext2⟩ := takes_undisturbed (t := t) .pop h1
    (by simp [State.setPc]) (by simpa [State.setPc, Call.takes, hHead] using hNode)
  have h3 := (Effect.moveOut (t := t) (s := s₂) (by rw [hPc2, Function.update_self])).reachable h2
  have h4 := (Effect.clear (t := t) (by exact Function.update_self ..)).reachable h3
  obtain ⟨s₅, last₅, h5, hPc5, hHeads5, hVersion5, hNext5⟩ := puts_undisturbed (t := t) .pop h4
    (by exact Function.update_self ..)
  have hIdle5 : s₅.pc t = .idle last₅ := by rw [hPc5, Function.update_self]
  have h6 := (@Effect.callPush τ α _ s₅ t last₅ value hIdle5).reachable h5
  have hHead2 : s₂.heads .head = ⟨kNullIndex, (tag + 1) % tagModulus⟩ := by
    simp [hHeads2, State.exchange, State.setPc, Call.takes, hHead, hNext]
  have hFree2 : s₂.heads .freeHead = ⟨kNullIndex, freeTag⟩ := by
    simp [hHeads2, State.exchange, State.setPc, Call.takes, hFree]
  have hHead5 : s₅.heads .head = ⟨kNullIndex, (tag + 1) % tagModulus⟩ := by
    simp [hHeads5, State.exchange, State.setPc, Call.puts, hHead2]
  have hFree5 : s₅.heads .freeHead = ⟨node, (freeTag + 1) % tagModulus⟩ := by
    simp [hHeads5, State.exchange, State.setPc, Call.puts, hFree2, Call.takes, hHead]
  obtain ⟨s₇, h7, hPc7, hHeads7, hVersion7, hNext7⟩ := takes_undisturbed (t := t)
    (.push (s₅.calls, value)) h6 (by exact Function.update_self ..)
    (by simpa [State.setPc, Call.takes, hFree5] using hNode)
  have h8 := (Effect.moveIn (t := t) (s := s₇) (by rw [hPc7, Function.update_self])).reachable h7
  obtain ⟨s₉, last₉, h9, hPc9, hHeads9, hVersion9, hNext9⟩ := puts_undisturbed (t := t)
    (.push (s₅.calls, value)) h8 (by exact Function.update_self ..)
  have hNext5' : s₅.next node = kNullIndex := by
    simp [hNext5, State.setPc, Call.takes, Call.puts, hHead, hFree2]
  have hHead7 : s₇.heads .head = ⟨kNullIndex, (tag + 1) % tagModulus⟩ := by
    simp [hHeads7, State.exchange, State.setPc, Call.takes, hHead5]
  have hFree7 : s₇.heads .freeHead = ⟨kNullIndex, (freeTag + 2) % tagModulus⟩ := by
    simp [hHeads7, State.exchange, State.setPc, Call.takes, hFree5, hNext5']
  refine ⟨s₉, last₉, h9, ?_, ?_, ?_, ?_, ?_⟩
  · simp [hPc9, State.setPc, hPc7, hPc5, hPc2]
  · simp [hHeads9, State.exchange, State.setPc, Call.takes, Call.puts, hHead7, hFree5]
  · simp [hHeads9, State.exchange, State.setPc, Call.puts, hFree7]
  · simp [hNext9, State.setPc, Call.takes, Call.puts, hFree5, hHead7]
  · simp [hVersion9, hVersion7, hVersion5, hVersion2, State.exchange, State.setPc, Call.takes,
      Call.puts]

/-- Thread `false` has loaded `m_head` in a `pop` and is about to exchange it; thread
`true` has done `n` pairs of `pop` and `push` since. -/
structure Stalled (n : Nat) (s : State Bool Nat) : Prop where
  stalled : s.pc false = .takeCas .pop ⟨0, 1⟩ 1 kNullIndex
  idle : ∃ last, s.pc true = .idle last
  head : s.heads .head = ⟨0, (2 * n + 1) % tagModulus⟩
  freeHead : s.heads .freeHead = ⟨kNullIndex, (2 * n + 1) % tagModulus⟩
  next : s.next 0 = kNullIndex
  version : s.version .head = 2 * n + 1

/-- One more pair. -/
theorem stalled_pair {n : Nat} {s : State Bool Nat} (hs : (system Bool Nat 1).Reachable s)
    (h : Stalled n s) : ∃ s', (system Bool Nat 1).Reachable s' ∧ Stalled (n + 1) s' := by
  obtain ⟨last, hIdle⟩ := h.idle
  obtain ⟨s', last', hs', hPc, hHead, hFree, hNext, hVersion⟩ :=
    pair_undisturbed 7 hs hIdle h.head h.freeHead (by decide) h.next
  have hTag : ((2 * n + 1) % tagModulus + 2) % tagModulus = (2 * (n + 1) + 1) % tagModulus := by
    unfold tagModulus
    omega
  refine ⟨s', hs', ?_, ⟨last', ?_⟩, ?_, ?_, hNext, ?_⟩
  · simp [hPc, h.stalled]
  · simp [hPc]
  · rw [hHead, hTag]
  · rw [hFree, hTag]
  · rw [hVersion, h.version]
    omega

/-- `n` pairs, from the state in which the `pop` is about to make its exchange. -/
theorem stalled_pairs (n : Nat) :
    ∃ s : State Bool Nat, (system Bool Nat 1).Reachable s ∧ Stalled n s := by
  induction n with
  | zero =>
    obtain ⟨s, hs, hStalled, hIdle, hHead, hFree, hNext, hVersion⟩ :=
      System.exists_reachable_of_exec (S := system Bool Nat 1)
        (p := fun s => s.pc false = .takeCas .pop ⟨0, 1⟩ 1 kNullIndex ∧
          s.pc true = .idle (some (.pushed true)) ∧ s.heads .head = ⟨0, 1⟩ ∧
          s.heads .freeHead = ⟨kNullIndex, 1⟩ ∧ s.next 0 = kNullIndex ∧ s.version .head = 1)
        ([Action.callPush true 7] ++ List.replicate 7 (Action.run true false) ++
          [Action.callPop false] ++ List.replicate 2 (Action.run false false))
        (by decide +kernel)
    exact ⟨s, hs, hStalled, ⟨_, hIdle⟩, hHead, hFree, hNext, hVersion⟩
  | succ n ih =>
    obtain ⟨s, hs, h⟩ := ih
    exact stalled_pair hs h

/-- After `2 ^ 31` pairs `m_head` is the word that the `pop` expects, and its exchange
succeeds. -/
theorem aba_at_wrap :
    ∃ s : State Bool Nat, (system Bool Nat 1).Reachable s ∧ ¬ AbaFree s := by
  obtain ⟨s, hs, h⟩ := stalled_pairs (2 ^ 31)
  refine ⟨s, hs, ?_⟩
  intro hFree
  have hExpected : s.heads .head = ⟨0, 1⟩ := by
    rw [h.head]
    rfl
  have hVersion := hFree false .head ⟨0, 1⟩ 1 (by rw [h.stalled]; rfl) hExpected
  rw [h.version] at hVersion
  omega

end EmbLinux.LockFreeStack
