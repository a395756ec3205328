import LibSpaces.Network.Server
import LibSpaces.Transactions.FailedCommit
import LibSpaces.Transactions.SoleTransaction

/-!
# Writes of the clients of one server

The clients of a server share its storage object and with it one transaction, `src/src/storage/
network/replication.cpp:30–196`. While only the client whose `begin` is open stores and commits,
the transaction holds what that client has stored since.
-/

namespace LibSpaces.Network

open LibSpaces.Base LibSpaces.Transactions LibSpaces.Transactions.Coordinator

/-- A transaction holds what is pending: committing it would put that over what is committed. -/
structure Holds (s : Coordinator) (t : ℕ) (pending : List (ℕ × Bytes)) : Prop where
  overlay : ∀ a, s.overlay t a = (pending.lookup a).or (s.content a)
  within : ∀ a, pending.lookup a = none → (s.versions t).block a = none

namespace Holds

variable {s s' : Coordinator} {t : ℕ} {pending : List (ℕ × Bytes)}

private theorem nil (h : ∀ a, (s.versions t).block a = none) : Holds s t [] where
  overlay := fun a ↦ by rw [Coordinator.overlay, h]; rfl
  within := fun a _ ↦ h a

/-- Nothing is pending in a transaction without blocks. -/
theorem of_blocks_eq_empty (h : (s.versions t).blocks = ∅) : Holds s t [] :=
  .nil fun a ↦ by rw [Allocator.block, h, AList.lookup_empty]

/-- What was published meanwhile is still pending. -/
theorem publishes (h : Holds s t pending) (hp : Publishes s s' t) : Holds s' t pending := by
  have hwithin : ∀ a, pending.lookup a = none → (s'.versions t).block a = none :=
    fun a ha ↦ hp.none a (h.within a ha)
  refine ⟨fun a ↦ ?_, hwithin⟩
  cases ha : pending.lookup a with
  | none =>
    rw [Coordinator.overlay, hwithin a ha]
    rfl
  | some data =>
    rw [congrFun hp.overlay a, h.overlay, ha]
    rfl

/-- What is pending is committed when all blocks are published. -/
theorem committed (h : Holds s t pending) (hp : Publishes s s' t)
    (hempty : (s'.versions t).blocks = ∅) (a : ℕ) :
    s'.content a = (pending.lookup a).or (s.content a) := by
  have hnone : (s'.versions t).block a = none := by
    rw [Allocator.block, hempty, AList.lookup_empty]
  have hoverlay : s'.overlay t a = s'.content a := by
    rw [Coordinator.overlay, hnone]
    rfl
  rw [← hoverlay, congrFun hp.overlay a, h.overlay]

/-- A block is stored. -/
theorem cons (h : Holds s t pending) {a : ℕ} {data : Bytes} (hcontent : s'.content = s.content)
    (hblock : ∀ a', ((s'.versions t).block a').map Block.content =
      if a' = a then some data else ((s.versions t).block a').map Block.content) :
    Holds s' t ((a, data) :: pending) := by
  constructor
  · intro a'
    rw [Coordinator.overlay, hblock, hcontent, List.lookup_cons]
    by_cases ha : a' = a
    · rw [if_pos ha, beq_iff_eq.2 ha, Option.some_or]
    · rw [if_neg ha, beq_false_of_ne ha]
      exact h.overlay a'
  · intro a' hnone
    rw [List.lookup_cons] at hnone
    by_cases ha : a' = a
    · rw [beq_iff_eq.2 ha] at hnone
      cases hnone
    · rw [beq_false_of_ne ha] at hnone
      have hmap := hblock a'
      rw [if_neg ha, h.within a' hnone] at hmap
      exact Option.map_eq_none_iff.1 hmap

end Holds

namespace ServerLog

/-- What the client whose `begin` is open has stored since. -/
def pending (h : ServerLog) : List (ℕ × Bytes) :=
  match h.owner with
  | some c => h.stored c
  | none => []

/-- What the requests keep: the coordinator has the transaction of the object alone, a client owns
one that has begun, and one that writes holds what its client has stored. -/
structure Keeps (h : ServerLog) : Prop where
  sole : Sole (h.server.storage.getD .closed) h.server.coordinator
  owned : h.owner ≠ none → ∃ x ∈ h.server.storage, x.transacted = true
  holds : ∀ x ∈ h.server.storage, x.writer = true → ∀ t ∈ x.transaction,
    Holds h.server.coordinator t h.pending
  nothingLost : h.NothingLost

private theorem keeps_start (initial : Opening) : (start initial).Keeps where
  sole := .start initial
  owned := fun h ↦ absurd rfl h
  holds := nofun
  nothingLost := nofun

/-- Nothing is owned once nothing has begun. -/
theorem Keeps.pending_eq_nil {h : ServerLog} (hk : h.Keeps)
    (hnot : ∀ x ∈ h.server.storage, x.transacted = false) : h.owner = none ∧ h.pending = [] := by
  have howner : h.owner = none := by
    by_contra hne
    obtain ⟨x, hx, hbegun⟩ := hk.owned hne
    rw [hnot x hx] at hbegun
    cases hbegun
  refine ⟨howner, ?_⟩
  rw [pending, howner]

/-- A request that leaves nothing begun, and no block in a transaction that writes. -/
theorem keeps_left {h : ServerLog} {s : Server} (hlost : h.NothingLost)
    (hsole : Sole (s.storage.getD .closed) s.coordinator)
    (hnot : ∀ x ∈ s.storage, x.transacted = false)
    (hblocks : ∀ x ∈ s.storage, x.writer = true → ∀ t ∈ x.transaction, Holds s.coordinator t []) :
    (h.left s).Keeps := by
  have howner : (h.left s).owner = none := by
    refine if_neg ?_
    cases hs : s.storage with
    | none => exact nofun
    | some x =>
      rw [Option.any_some, hnot x hs]
      exact nofun
  refine ⟨hsole, fun hne ↦ absurd howner hne, fun x hx hw t ht ↦ ?_, hlost⟩
  rw [pending, howner]
  exact hblocks x hx hw t ht

/-! ### The requests -/

private theorem keeps_openStorage {h : ServerLog} (hk : h.Keeps) {version : ℕ}
    (hfresh : h.server.coordinator.IsFresh version) (replicated : Bool) {s : Server}
    (hs : h.server.openStorage version replicated = some s) :
    Keeps { h with server := s } := by
  unfold Server.openStorage at hs
  split at hs
  · cases hs
    exact hk
  next hnone =>
  have hsole := hk.sole
  rw [hnone, Option.getD_none] at hsole
  obtain ⟨howner, -⟩ := hk.pending_eq_nil (by simp [hnone])
  rcases Session.begin_of_sole hsole h.server.locked false hfresh replicated (fun _ ↦ .inl rfl) with
    hwaits | ⟨r, y, s', locked, hbegin, hy, -, hr⟩
  · rw [Server.session, hwaits] at hs
    cases hs
  rw [Server.session, hbegin] at hs
  cases Option.some.inj hs
  rcases hr with ⟨hthrows, ht, hbegun⟩ | ⟨rfl, hbegun, hreader, -⟩
  · cases r with
    | ok _ => exact absurd rfl hthrows
    | error e =>
      have hclosed := hy.writer ht false false rfl
      exact ⟨hclosed, fun hne ↦ absurd howner hne, nofun, hk.nothingLost⟩
  · refine ⟨hy, fun hne ↦ absurd howner hne, fun x hx hw ↦ ?_, hk.nothingLost⟩
    obtain rfl := Option.some.inj hx
    rw [hreader] at hw
    cases hw

private theorem keeps_begin {h h' : ServerLog} (hk : h.Keeps) (c : ℕ) {write : Bool} {version : ℕ}
    {replicated : Bool} (ha : h.Separate (c, .begin write version replicated))
    (hstep : h.step (c, .begin write version replicated) = some h') : h'.Keeps := by
  rw [step] at hstep
  split at hstep
  swap
  · cases hstep
  next hfresh =>
  obtain ⟨r, hr, rfl⟩ := Option.map_eq_some_iff.1 hstep
  unfold Server.begin at hr
  split at hr
  · next hnone =>
    cases hr
    exact keeps_left hk.nothingLost hk.sole (by simp [hnone]) (by simp [hnone])
  next x hx =>
  have hsole := hk.sole
  rw [hx, Option.getD_some] at hsole
  rcases Session.begin_of_sole hsole h.server.locked write hfresh replicated
    (fun hw ↦ ha hw x hx) with hwaits | ⟨r', y, s', locked, hbegin, hy, -, hr'⟩
  · rw [Server.session, hwaits] at hr
    cases hr
  rw [Server.session, hbegin] at hr
  cases Option.some.inj hr
  rcases hr' with ⟨hthrows, ht, hbegun⟩ | ⟨rfl, hbegun, hwriter, hempty⟩
  · dsimp only
    rw [if_neg (by simpa using hthrows)]
    refine keeps_left hk.nothingLost hy (fun x hx ↦ ?_) (fun x hx _ t ht' ↦ ?_)
    · obtain rfl := Option.some.inj hx
      exact hbegun
    · obtain rfl := Option.some.inj hx
      rw [ht] at ht'
      cases ht'
  · dsimp only
    rw [if_pos (by simp)]
    refine ⟨hy, fun _ ↦ ⟨y, rfl, hbegun⟩, fun z hz hw t ht ↦ ?_, hk.nothingLost⟩
    obtain rfl := Option.some.inj hz
    have hpending : pending
        ⟨Server.left ⟨y, s', locked⟩, Function.update h.stored c [], some c, h.commits⟩ = [] :=
      Function.update_self ..
    rw [hpending]
    rcases hempty t ht (hwriter ▸ hw) with hblocks | ⟨hkept, hxw, hxt, rfl⟩
    · exact .of_blocks_eq_empty hblocks
    · -- The transaction was kept by a commit, which has published all its blocks.
      have hnil := (hk.pending_eq_nil
          fun z hz ↦ by rw [← Option.some.inj (hx.symm.trans hz), hkept]).2
      have hholds := hk.holds x hx (by rw [hxw, ← hwriter, hw]) t hxt
      rwa [hnil] at hholds

/-- Only an object that has begun to write stores a block. -/
theorem store_cases {s : Server} (h : Sole (s.storage.getD .closed) s.coordinator) (address : ℕ)
    (data : Bytes) :
    s.store address data = (none, s) ∨
      ∃ x t a s', s.storage = some x ∧ x.Writing ∧ x.transaction = some t ∧
        s.store address data = (some a, { s with coordinator := s' }) ∧ Sole x s' ∧
        s'.content = s.coordinator.content ∧
        ∀ a', ((s'.versions t).block a').map Block.content =
          if a' = a then some data
          else ((s.coordinator.versions t).block a').map Block.content := by
  obtain ⟨storage, c, locked⟩ := s
  unfold Server.store
  cases storage with
  | none => exact .inl rfl
  | some x =>
    obtain ⟨transaction, transacted, writer⟩ := x
    cases transacted with
    | false => exact .inl rfl
    | true =>
      cases transaction with
      | none => exact .inl rfl
      | some t =>
        dsimp only [Session.allocateAndWrite, Server.session, Server.left]
        cases writer with
        | false =>
          have hro : (c.versions t).readOnly = true := h.readOnly t rfl
          have hrefused : c.allocate t address .create = (.error .invalidStorageAction, c) := by
            unfold allocate
            dsimp only
            rw [if_pos ⟨hro, nofun⟩]
          have hwritten : c.allocateAndWrite t address .create (some data) = c := by
            unfold allocateAndWrite
            rw [hrefused]
          rw [hrefused, hwritten]
          exact .inl rfl
        | true =>
          obtain ⟨a, s', hallocate, hwritten, hsole, hcontent, hblock⟩ :=
            h.stored rfl rfl address data
          refine .inr ⟨_, t, a, s', rfl, ⟨nofun, rfl, rfl⟩, rfl, ?_, hsole, hcontent, hblock⟩
          rw [hallocate, hwritten]
          rfl

private theorem keeps_store {h h' : ServerLog} (hk : h.Keeps) {c address : ℕ} {data : Bytes}
    (ha : h.Separate (c, .store address data)) (hstep : h.step (c, .store address data) = some h') :
    h'.Keeps := by
  rw [step] at hstep
  rcases store_cases hk.sole address data with
    hnone | ⟨x, t, a, s', hx, hwriting, ht, hstored, hsole, hcontent, hblock⟩
  · rw [hnone] at hstep
    cases hstep
    exact hk
  rw [hstored] at hstep
  cases Option.some.inj hstep
  have howner : h.owner = some c := ha ⟨x, hx, hwriting⟩
  have hpending : h.pending = h.stored c := by rw [pending, howner]
  refine ⟨?_, fun _ ↦ ⟨x, hx, hwriting.2.1⟩, fun y hy _ u hu ↦ ?_, hk.nothingLost⟩
  · dsimp only
    rwa [hx]
  · obtain rfl := Option.some.inj (hx.symm.trans hy)
    obtain rfl := Option.some.inj (ht.symm.trans hu)
    have hholds := (hk.holds x hx hwriting.2.2 t ht).cons hcontent hblock
    have hpending' : pending ⟨{ h.server with coordinator := s' },
        Function.update h.stored c ((a, data) :: h.stored c), h.owner, h.commits⟩ =
          (a, data) :: h.pending := by
      rw [hpending, pending]
      dsimp only
      rw [howner]
      exact Function.update_self ..
    rwa [hpending']

/-- What is settled adds nothing to what is committed. -/
theorem Settled.or {h : ServerLog} {c : ℕ} (hs : h.Settled c) (a : ℕ) :
    ((h.stored c).lookup a).or (h.server.coordinator.content a) =
      h.server.coordinator.content a := by
  cases ha : (h.stored c).lookup a with
  | none => rfl
  | some data =>
    obtain ⟨before, after, hstored, -⟩ := List.lookup_eq_some_iff.1 ha
    have hmem : (a, data) ∈ h.stored c := by
      rw [hstored]
      exact List.mem_append_right _ List.mem_cons_self
    rw [hs (a, data) hmem, ha]
    rfl

/-- A commit that returns has committed what the client has stored, and nothing else. -/
theorem content_of_commit {h : ServerLog} (hk : h.Keeps) {c created : ℕ} {peers : Peers}
    {synched : Bool} (ha : h.Separate (c, .commit peers created synched)) {x : AbstractedStorage}
    (hx : h.server.storage = some x) {s' : Coordinator}
    (hs' : x.transaction = none ∧ s' = h.server.coordinator ∨
      ∃ t, x.transaction = some t ∧ x.writer = true ∧ Publishes h.server.coordinator s' t ∧
        (s'.versions t).blocks = ∅) (a : ℕ) :
    s'.content a = ((h.stored c).lookup a).or (h.server.coordinator.content a) := by
  by_cases hwriting : h.Writing
  · have howner : h.owner = some c := (if_pos hwriting).mp ha
    have hpending : h.pending = h.stored c := by rw [pending, howner]
    obtain ⟨y, hy, hw⟩ := hwriting
    obtain rfl := Option.some.inj (hx.symm.trans hy)
    obtain ⟨t, ht, hwriter, hpublishes, hempty⟩ := hs'.resolve_left fun hn ↦ hw.1 hn.1
    rw [← hpending]
    exact (hk.holds x hx hwriter t ht).committed hpublishes hempty a
  · have hsettled : h.Settled c :=
      ((if_neg hwriting).mp ha).resolve_left (by rw [hx]; nofun)
    rw [hsettled.or]
    rcases hs' with ⟨-, rfl⟩ | ⟨t, ht, hwriter, hpublishes, hempty⟩
    · rfl
    · have hbegun : x.transacted = false := by
        by_contra hbegun
        exact hwriting ⟨x, hx, by rw [ht]; nofun, Bool.not_eq_false _ ▸ hbegun, hwriter⟩
      have hnil := (hk.pending_eq_nil fun y hy ↦ by
        rw [← Option.some.inj (hx.symm.trans hy), hbegun]).2
      have hholds := hk.holds x hx hwriter t ht
      rw [hnil] at hholds
      exact hholds.committed hpublishes hempty a

private theorem keeps_commit {h h' : ServerLog} (hk : h.Keeps) {c created : ℕ} {peers : Peers}
    {synched : Bool} (ha : h.Separate (c, .commit peers created synched))
    (hstep : h.step (c, .commit peers created synched) = some h') : h'.Keeps := by
  rw [step] at hstep
  split at hstep
  swap
  · cases hstep
  next hfresh =>
  unfold Server.commit at hstep
  cases hx : h.server.storage with
  | none =>
    rw [hx] at hstep
    cases hstep
    exact keeps_left hk.nothingLost hk.sole (by simp [hx]) (by simp [hx])
  | some x =>
    have hsole := hk.sole
    rw [hx, Option.getD_some] at hsole
    rw [hx] at hstep
    obtain ⟨r, y, s', locked, hcommit, hy, hr⟩ :=
      Session.commit_of_sole hsole h.server.locked peers hfresh
    dsimp only [Server.session] at hstep
    rw [hcommit] at hstep
    rcases hr with ⟨⟨e, rfl⟩, rfl, hpublishes⟩ | hreturns
    · cases hstep
      have howner : (h.left (Server.left ⟨y, s', locked⟩)).owner = h.owner := by
        cases hbegun : y.transacted with
        | false =>
          have hnone := (hk.pending_eq_nil fun z hz ↦ by
            rw [← Option.some.inj (hx.symm.trans hz), hbegun]).1
          change (if _ then h.owner else none) = h.owner
          rw [hnone, ite_self]
        | true => exact if_pos hbegun
      have hpending : (h.left (Server.left ⟨y, s', locked⟩)).pending = h.pending := by
        rw [pending, howner]
        rfl
      refine ⟨hy, fun hne ↦ ?_, fun z hz hw t ht ↦ ?_, hk.nothingLost⟩
      · obtain ⟨z, hz, hbegun⟩ := hk.owned (howner ▸ hne)
        obtain rfl := Option.some.inj (hx.symm.trans hz)
        exact ⟨y, rfl, hbegun⟩
      · obtain rfl := Option.some.inj hz
        rw [hpending]
        exact (hk.holds y hx hw t ht).publishes (hpublishes t ht)
    · obtain ⟨⟨b, rfl⟩, hbegun, ht, hpublished⟩ := hreturns
      have hcommitted := content_of_commit hk ha hx hpublished
      have hended : (h.left (Server.left ⟨y, s', locked⟩)).Keeps := by
        refine keeps_left hk.nothingLost hy (fun z hz ↦ ?_) fun z hz hw t ht' ↦ ?_
        · rw [← Option.some.inj hz, hbegun]
        · obtain rfl := Option.some.inj hz
          rcases hpublished with ⟨hnone, -⟩ | ⟨u, hu, -, -, hempty⟩
          · cases (ht.trans hnone).symm.trans ht'
          · cases (ht.trans hu).symm.trans ht'
            exact .of_blocks_eq_empty hempty
      cases synched with
      | false =>
        cases hstep
        exact hended
      | true =>
        cases hstep
        refine ⟨hended.sole, hended.owned, hended.holds, fun k hin ↦ ?_⟩
        rcases List.mem_cons.1 hin with rfl | hin
        · exact hcommitted
        · exact hk.nothingLost k hin

/-- A request that ends what is open leaves an object without a transaction, or one kept by a
commit. -/
theorem keeps_rollback {h : ServerLog} (hk : h.Keeps) : (h.left h.server.rollback).Keeps := by
  unfold Server.rollback
  split
  · next hx => exact keeps_left hk.nothingLost hk.sole (by simp [hx]) (by simp [hx])
  next x hx =>
  have hsole := hk.sole
  rw [hx, Option.getD_some] at hsole
  obtain ⟨y, s', locked, hrollback, hy, hbegun, -, -, hr⟩ :=
    Session.rollback_of_sole hsole h.server.locked
  rw [Server.session, hrollback]
  refine keeps_left hk.nothingLost hy (fun z hz ↦ ?_) fun z hz hw t ht ↦ ?_
  · rw [← Option.some.inj hz, hbegun]
  · obtain rfl := Option.some.inj hz
    rcases hr with rfl | ⟨rfl, rfl⟩
    · cases ht
    · have hholds := hk.holds y hx hw t ht
      rwa [(hk.pending_eq_nil fun z hz ↦ by
        rw [← Option.some.inj (hx.symm.trans hz), hbegun]).2] at hholds

private theorem keeps_close {h : ServerLog} (hk : h.Keeps) : (h.left h.server.close).Keeps := by
  unfold Server.close
  split
  · next hx => exact keeps_left hk.nothingLost hk.sole (by simp [hx]) (by simp [hx])
  next x hx =>
  have hsole := hk.sole
  rw [hx, Option.getD_some] at hsole
  obtain ⟨s', hclose, hclosed, -⟩ := Session.close_of_sole hsole h.server.locked
  rw [Server.session, hclose]
  exact keeps_left hk.nothingLost hclosed nofun nofun

private theorem keeps_step (h h' : ServerLog) (a : ℕ × Request) (hk : h.Keeps) (ha : h.Separate a)
    (hstep : h.step a = some h') : h'.Keeps := by
  obtain ⟨c, a⟩ := a
  cases a with
  | openStorage version replicated =>
    rw [step] at hstep
    split at hstep
    · next hfresh =>
      obtain ⟨s, hs, rfl⟩ := Option.map_eq_some_iff.1 hstep
      exact keeps_openStorage hk hfresh replicated hs
    · cases hstep
  | begin write version replicated => exact keeps_begin hk c ha hstep
  | store address data => exact keeps_store hk ha hstep
  | commit peers created synched => exact keeps_commit hk ha hstep
  | rollback =>
    cases hstep
    exact keeps_rollback hk
  | close =>
    cases hstep
    exact keeps_close hk

/-- In every run in which clients keep apart, a commit request that returns true has committed all
that its client has stored since its last `begin`, and nothing that another one has. -/
theorem nothingLost_of_reached {initial : Opening} {h : ServerLog}
    (hs : Reached step Separate (start initial) h) : h.NothingLost :=
  (hs.invariant Keeps (keeps_start initial) keeps_step).nothingLost

/-- Two clients take turns, and the first one commits once more. -/
def takingTurns : List (ℕ × Request) :=
  [(0, .openStorage 2 true), (0, .begin true 3 true), (0, .store 40 [1]),
    (0, .commit alone 4 true), (1, .begin true 5 true), (1, .store 41 [2]),
    (1, .commit alone 6 true), (0, .commit alone 7 true)]

/-- A run in which three requests follow each other and nothing is lost. -/
theorem nothingLost_of_reached_turns :
    ∃ h, runAllowed step Separate (start (.plain ⟨1, 32, 0, ∅⟩)) takingTurns = some h ∧
      h.commits.length = 3 ∧ h.server.coordinator.content 40 = some [1] ∧
      h.server.coordinator.content 41 = some [2] ∧ h.NothingLost := by
  have hrun : (runAllowed step Separate (start (.plain ⟨1, 32, 0, ∅⟩)) takingTurns).map
      (fun h ↦ (h.commits.length, h.server.coordinator.content 40,
        h.server.coordinator.content 41)) = some (3, some [1], some [2]) := by decide +kernel
  obtain ⟨h, hs, hvalue⟩ := Option.map_eq_some_iff.1 hrun
  simp only [Prod.mk.injEq] at hvalue
  exact ⟨h, hs, hvalue.1, hvalue.2.1, hvalue.2.2,
    nothingLost_of_reached (reached_of_runAllowed .start hs)⟩

/-- A second client begins before the first one has committed. -/
def beginBetween : List (ℕ × Request) :=
  [(0, .openStorage 2 true), (0, .begin true 3 true), (0, .store 40 [1]), (1, .begin true 4 true),
    (0, .commit alone 5 true)]

/-- The commit returns true, and the block that its client stored is gone. -/
theorem beginBetween_lost :
    ∃ h, run step (start (.plain ⟨1, 32, 0, ∅⟩)) beginBetween = some h ∧
      h.server.coordinator.content 40 = none ∧ ¬h.NothingLost := by
  have hrun : (run step (start (.plain ⟨1, 32, 0, ∅⟩)) beginBetween).map
      (fun h ↦ (h.server.coordinator.content 40, h.commits.any fun k ↦
        k.after 40 ≠ (k.stored.lookup 40).or (k.before 40))) = some (none, true) := by
    decide +kernel
  obtain ⟨h, hs, hvalue⟩ := Option.map_eq_some_iff.1 hrun
  simp only [Prod.mk.injEq, List.any_eq_true, decide_eq_true_eq] at hvalue
  obtain ⟨hcontent, k, hk, hne⟩ := hvalue
  exact ⟨h, hs, hcontent, fun hlost ↦ hne (hlost k hk 40)⟩

end ServerLog

end LibSpaces.Network
