import LibSpaces.Stx.Reopening
import LibSpaces.Stx.Wellformed

/-!
# The states of the nodes

`change_before` registers a node unless its state is `created` or `changed`. A leaf that is saved
is `loaded` again, an interior node stays what it was, `src/src/stx/btree.h:652–686,2364–2446`.
A node that is in memory gets the state `loaded` when `load` is asked for it (2622–2627). Which
pointers besides `last_surface` still have their nodes is not followed: an operation may ask for
any of them.
-/

namespace LibSpaces.Stx

open LibSpaces.Base

/-- A tree with boot block 5: the start value of `last_surface_size`. -/
structure Handle (K V : Type) where
  tree : Btree K V
  startLastSurfaceSize : ℕ

/-- What is done with a tree. An operation makes the nodes of `reloaded` `loaded` before it writes
to them. -/
inductive TreeAction (K V : Type)
  | work (op : MapOp K V) (reloaded : List ℕ)
  | atEnd
  | flush
  | reopen

variable {K V : Type}

namespace Btree

/-- The node at `w` is an interior one. -/
def isInterior (s : Btree K V) (w : ℕ) : Bool := (s.interiorAt w).isSome

/-- A tree in which no page is registered, after the nodes of `reloaded` were asked for. -/
def unregistered (s : Btree K V) (reloaded : List ℕ) : Btree K V :=
  { s with
    modified := []
    noted := { s.noted with changed := s.noted.changed.filter fun w ↦ w ∉ reloaded } }

/-- What is left of a tree by an operation, wherever it writes. -/
structure Wrote (s s' : Btree K V) : Prop where
  pages : s'.storage.pages = s.storage.pages
  boot : s'.storage.boot = s.storage.boot
  stats : s'.stats = { s.stats with treeSize := s'.stats.treeSize }
  loaded : ∀ w ∈ s'.modified, (s'.nodesLoaded w).isSome
  others : ∀ w ∉ s'.modified, s'.nodesLoaded w = s.nodesLoaded w
  changed : ∀ w ∈ s'.noted.changed, w ∈ s.noted.changed ∨ w ∈ s'.modified

private theorem wrote_refl {s : Btree K V} (hs : s.modified = []) : Wrote s s :=
  ⟨rfl, rfl, rfl, by simp [hs], fun _ _ ↦ rfl, fun _ ↦ .inl⟩

private theorem mem_noteChange {s : Btree K V} {v w : ℕ} (h : v ∈ (s.noteChange w).changed) :
    v ∈ s.noted.changed ∨ v = w := by
  unfold noteChange at h
  split at h
  · exact .inl h
  · split at h
    · split at h
      · exact (List.mem_cons.1 h).symm
      · exact .inl h
    · exact (List.mem_cons.1 h).symm

private theorem Wrote.put {s s' : Btree K V} (h : Wrote s s') (w : ℕ) (n : Node K V) :
    Wrote s (s'.put w n) := by
  refine ⟨h.pages, h.boot, h.stats, fun v hv ↦ ?_, fun v hv ↦ ?_, fun v hv ↦ ?_⟩
  · rw [Btree.put, List.mem_insert_iff] at hv
    simp only [Btree.put, Function.update_apply]
    split
    · rfl
    · next hne => exact h.loaded v (hv.resolve_left hne)
  · rw [Btree.put, List.mem_insert_iff, not_or] at hv
    simp only [Btree.put, Function.update_apply, if_neg hv.1]
    exact h.others v hv.2
  · rw [Btree.put, List.mem_insert_iff]
    rcases mem_noteChange hv with hv | rfl
    · exact (h.changed v hv).imp_right .inr
    · exact .inr (.inl rfl)

/-- No operation writes to a node that it does not register. -/
theorem keptOf_wrote (s : Btree K V) : KeptOf (Wrote s) where
  load h := by rw [h.1]
  root h := by rw [h.1]
  lastAddress h := by rw [h.1]
  modified h := by rw [h.1]
  put h w n := ⟨by rw [h.1], h.2.put w n⟩
  allocate {s' _} h n := by
    have hwrote : Wrote s { s' with storage := { s'.storage with
        lastAddress := s'.storage.lastAddress + 1 } } :=
      { h.2 with }
    exact ⟨by rw [h.1], hwrote.put _ n⟩
  setRoot h _ := ⟨by rw [h.1], { h.2 with }⟩
  setHead h _ := ⟨by rw [h.1], { h.2 with }⟩
  setLast h _ := ⟨by rw [h.1], { h.2 with }⟩
  setSize h f := ⟨by rw [h.1], { h.2 with stats := by rw [h.2.stats] }⟩
  write {s' _} h w hw n := by
    refine ⟨by rw [h.1], h.2.pages, h.2.boot, h.2.stats, fun v hv ↦ ?_, fun v hv ↦ ?_, h.2.changed⟩
    · simp only [Function.update_apply]
      split
      · rfl
      · exact h.2.loaded v hv
    · simp only [Function.update_apply]
      rw [if_neg fun heq : v = w ↦ hv (heq ▸ hw)]
      exact h.2.others v hv

private theorem wrote_step [LinearOrder K] [Inhabited K] [Inhabited V] {s s' : Btree K V}
    {tr : Traits} {op : MapOp K V} {answer : Answer V} (hs : s.modified = [])
    (hstep : s.step tr op = some (s', answer)) : Wrote s s' :=
  of_agree ((keptOf_wrote s).step ⟨rfl, wrote_refl hs⟩ tr op) hstep

end Btree

namespace Handle

section Source

variable (h : Handle K V)

/-- `last_surface_size`. -/
def lastSurfaceSize : ℕ := h.tree.noted.size

/-- The constructor with boot block 5, `btree.h:4286–4288`; the node of `last_surface` is not
loaded yet. -/
def opened (storage : Storage K V) : Option (Handle K V) :=
  (Btree.opened storage).map fun tree ↦
    let size := if (storage.boot 1).isSome then (storage.boot 5).getD 0 else 0
    ⟨{ tree with noted := ⟨[], (storage.boot 1).isNone, size⟩ }, size⟩

variable [LinearOrder K] [Inhabited K] [Inhabited V]

/-- The interior nodes that an operation writes to and that `change_before` passes over: they were
saved and are still `created` or `changed`. -/
def passedOver (tr : Traits) (op : MapOp K V) (reloaded : List ℕ) : List ℕ :=
  let start := h.tree.unregistered reloaded
  match start.step tr op with
  | some (s, _) => s.modified.filter fun w ↦
    w ∈ start.noted.changed ∧ w ∉ h.tree.modified ∧ s.isInterior w
  | none => []

/-- An operation: what it writes to is registered unless it is passed over. -/
def work (tr : Traits) (op : MapOp K V) (reloaded : List ℕ) : Option (Handle K V) := do
  let (s, _) ← (h.tree.unregistered reloaded).step tr op
  let registered := s.modified.filter fun w ↦ w ∉ h.passedOver tr op reloaded
  return { h with tree := { s with modified := registered ∪ h.tree.modified } }

omit [LinearOrder K] [Inhabited K] [Inhabited V] in
/-- `end`, `btree.h:4911–4919`, which loads the node of `last_surface` if it has none. -/
def atEnd : Option (Handle K V) :=
  h.tree.endIterator.map fun i ↦
    let changed := if h.tree.noted.lastLoaded then h.tree.noted.changed
      else h.tree.noted.changed.filter (· ≠ h.tree.lastSurface)
    { h with tree := { h.tree with noted := ⟨changed, true, i.2⟩ } }

omit [LinearOrder K] [Inhabited K] [Inhabited V] in
/-- Boot block 5, `btree.h:4484–4487`. -/
def writeLastSize : Handle K V :=
  if h.startLastSurfaceSize ≠ h.lastSurfaceSize then
    ⟨h.tree.setBoot 5 h.lastSurfaceSize, h.lastSurfaceSize⟩
  else h

omit [LinearOrder K] [Inhabited K] [Inhabited V] in
/-- `flush`, `btree.h:4508–4524`; `changes` counts the pages that are saved, and a leaf that is
saved is `loaded`. -/
def flush : Option (Handle K V) :=
  if h.tree.stats.treeSize = 0 then some h
  else h.tree.flush.map fun tree ↦
    let changed := h.tree.noted.changed.filter fun w ↦ w ∉ h.tree.modified ∨ h.tree.isInterior w
    let flushed :=
      { h with tree := { tree with noted := { h.tree.noted with changed := changed } } }
    if h.tree.stats.changes + h.tree.modified.length = 0 then flushed else flushed.writeLastSize

/-- One step. -/
def step (tr : Traits) (h : Handle K V) : TreeAction K V → Option (Handle K V)
  | .work op reloaded => h.work tr op reloaded
  | .atEnd => h.atEnd
  | .flush => h.flush
  | .reopen => opened h.tree.storage

end Source

variable {h h' : Handle K V} {st : Storage K V}

/-! ### Complete registration -/

/-- Every node inside the tree that differs from its stored page is registered. -/
def Complete (h : Handle K V) : Prop :=
  ∀ d w, Btree.Inside h.tree d w → h.tree.load w ≠ h.tree.storage.pages w → w ∈ h.tree.modified

/-- The stored pages are the nodes inside the tree. -/
def Decodes (h : Handle K V) : Prop :=
  ∀ d w, Btree.Inside h.tree d w → h.tree.storage.pages w = h.tree.load w

/-- The steps on one tree object that pass over no interior node. -/
def Registers [LinearOrder K] [Inhabited K] [Inhabited V] (tr : Traits) (h : Handle K V) :
    TreeAction K V → Prop
  | .work op reloaded => h.passedOver tr op reloaded = []
  | .atEnd | .flush => True
  | .reopen => False

variable [LinearOrder K] [Inhabited K] {tr : Traits}

/-- Whatever differs from its page is registered, and the tree holds some pairs. -/
structure Tidy (tr : Traits) (h : Handle K V) : Prop where
  registered : ∀ w, h.tree.load w ≠ h.tree.storage.pages w → w ∈ h.tree.modified
  loaded : ∀ w ∈ h.tree.modified, (h.tree.nodesLoaded w).isSome
  holds : ∃ m : OrderedMap K V, Btree.Holds tr h.tree m.pairs

private theorem Tidy.complete (ht : Tidy tr h) : h.Complete := fun _ w _ ↦ ht.registered w

/-- What an operation that does not fail leaves. -/
theorem exists_of_work [Inhabited V] {op : MapOp K V} {reloaded : List ℕ}
    (hwork : h.work tr op reloaded = some h') :
    ∃ s answer, (h.tree.unregistered reloaded).step tr op = some (s, answer) ∧
      Btree.Wrote (h.tree.unregistered reloaded) s ∧ h' = { h with
        tree := { s with modified :=
          (s.modified.filter fun w ↦ w ∉ h.passedOver tr op reloaded) ∪ h.tree.modified } } := by
  unfold work at hwork
  obtain ⟨⟨s, answer⟩, hstep, hwork⟩ := Option.bind_eq_some_iff.1 hwork
  cases hwork
  exact ⟨s, answer, hstep, Btree.wrote_step rfl hstep, rfl⟩

omit [LinearOrder K] [Inhabited K] in
/-- What a flush that does not throw leaves of a tree that is not empty. -/
theorem sameTree_of_flush (hflush : h.flush = some h') (hsize : h.tree.stats.treeSize ≠ 0) :
    Btree.SameTree h.tree.savedAll h'.tree := by
  rw [flush, if_neg hsize] at hflush
  obtain ⟨t, ht, rfl⟩ := Option.map_eq_some_iff.1 hflush
  have hsame : Btree.SameTree h.tree.savedAll t :=
    Btree.eq_of_flush ht hsize ▸ Btree.sameTree_writeBootValues _
  dsimp only
  split
  · exact hsame.trans ⟨rfl, rfl, rfl, rfl, rfl, rfl, rfl, rfl⟩
  · unfold writeLastSize
    split
    · exact hsame.trans ⟨rfl, rfl, rfl, rfl, rfl, rfl, rfl, rfl⟩
    · exact hsame.trans ⟨rfl, rfl, rfl, rfl, rfl, rfl, rfl, rfl⟩

private theorem Tidy.work [Inhabited V] {op : MapOp K V} {reloaded : List ℕ} (ht : Tidy tr h)
    (hpassed : h.passedOver tr op reloaded = []) (hwork : h.work tr op reloaded = some h') :
    Tidy tr h' := by
  obtain ⟨s, answer, hstep, hwrote, rfl⟩ := exists_of_work hwork
  have hmem {w : ℕ} : w ∈ (s.modified.filter fun w ↦ w ∉ h.passedOver tr op reloaded) ∪
      h.tree.modified ↔ w ∈ s.modified ∨ w ∈ h.tree.modified := by
    simp [hpassed]
  have hothers {w : ℕ} (hw : w ∉ s.modified) : s.nodesLoaded w = h.tree.nodesLoaded w :=
    hwrote.others w hw
  refine ⟨fun w hne ↦ hmem.2 ?_, fun w hw ↦ ?_, ?_⟩
  · by_cases hw : w ∈ s.modified
    · exact .inl hw
    · refine .inr (ht.registered w fun heq ↦ hne ?_)
      show (s.nodesLoaded w <|> s.storage.pages w) = s.storage.pages w
      rw [hothers hw, hwrote.pages]
      exact heq
  · by_cases hw' : w ∈ s.modified
    · exact hwrote.loaded w hw'
    · show (s.nodesLoaded w).isSome
      rw [hothers hw']
      exact ht.loaded w ((hmem.1 hw).resolve_left hw')
  · obtain ⟨m, hm⟩ := ht.holds
    have hm' : Btree.Holds tr (h.tree.unregistered reloaded) m.pairs :=
      hm.of_load rfl rfl le_rfl rfl
    obtain ⟨s', hstep', hs'⟩ := hm'.step op
    cases hstep.symm.trans hstep'
    exact ⟨_, hs'.of_load rfl rfl le_rfl rfl⟩

omit [LinearOrder K] [Inhabited K] in
/-- A flush writes the modified pages and leaves the others as they are. -/
theorem pages_of_flush (hflush : h.flush = some h') (hsize : h.tree.stats.treeSize ≠ 0) (w : ℕ) :
    h'.tree.storage.pages w =
      if w ∈ h.tree.modified then h.tree.nodesLoaded w else h.tree.storage.pages w :=
  congrFun (sameTree_of_flush hflush hsize).pages w

omit [LinearOrder K] [Inhabited K] in
/-- A flush changes no node in memory. -/
theorem load_of_flush (hflush : h.flush = some h') (hsize : h.tree.stats.treeSize ≠ 0)
    (hloaded : ∀ w ∈ h.tree.modified, (h.tree.nodesLoaded w).isSome) :
    h'.tree.load = h.tree.load := by
  funext w
  rw [Btree.load, pages_of_flush hflush hsize, (sameTree_of_flush hflush hsize).nodesLoaded]
  show (h.tree.nodesLoaded w <|> _) = (h.tree.nodesLoaded w <|> _)
  split
  · next hw =>
    obtain ⟨n, hn⟩ := Option.isSome_iff_exists.1 (hloaded w hw)
    rw [hn]
    rfl
  · rfl

/-- After a flush the stored pages are the nodes in memory. -/
theorem Tidy.pages (ht : Tidy tr h) (hflush : h.flush = some h')
    (hsize : h.tree.stats.treeSize ≠ 0) (w : ℕ) :
    h'.tree.storage.pages w = h'.tree.load w := by
  rw [load_of_flush hflush hsize ht.loaded, pages_of_flush hflush hsize]
  split
  · next hw =>
    obtain ⟨n, hn⟩ := Option.isSome_iff_exists.1 (ht.loaded w hw)
    rw [Btree.load, hn]
    rfl
  · next hw => exact (not_not.1 (mt (ht.registered w) hw)).symm

private theorem Tidy.flush (ht : Tidy tr h) (hflush : h.flush = some h') :
    Tidy tr h' ∧ h'.Decodes := by
  obtain ⟨m, hm⟩ := ht.holds
  by_cases hsize : h.tree.stats.treeSize = 0
  · rw [Handle.flush, if_pos hsize] at hflush
    cases hflush
    have hroot : h.tree.root = 0 :=
      hm.root_eq_zero.2 (List.length_eq_zero_iff.1 (hm.treeSize.symm.trans hsize))
    exact ⟨ht, fun d w hin ↦ absurd hroot hin.1⟩
  · have hpages := ht.pages hflush hsize
    have hsame := sameTree_of_flush hflush hsize
    have hmod : h'.tree.modified = [] := hsame.modified
    refine ⟨⟨fun w hne ↦ absurd (hpages w).symm hne, fun w hw ↦ ?_, m, ?_⟩, fun d w _ ↦ hpages w⟩
    · rw [hmod] at hw
      cases hw
    · exact hm.of_load (load_of_flush hflush hsize ht.loaded) hsame.root hsame.lastAddress.ge
        hsame.treeSize

private theorem tidy_step [Inhabited V] (a : TreeAction K V) (ht : Tidy tr h)
    (ha : h.Registers tr a) (hstep : h.step tr a = some h') : Tidy tr h' := by
  cases a with
  | work op reloaded => exact ht.work ha hstep
  | atEnd =>
    obtain ⟨i, -, rfl⟩ := Option.map_eq_some_iff.1 hstep
    obtain ⟨m, hm⟩ := ht.holds
    exact ⟨ht.registered, ht.loaded, m, hm.of_load rfl rfl le_rfl rfl⟩
  | flush => exact (ht.flush hstep).1
  | reopen => exact ha.elim

private theorem tidy_opened {h₀ : Handle K V} {m : OrderedMap K V} (hopen : opened st = some h₀)
    (h₀holds : Btree.Holds tr h₀.tree m.pairs) : Tidy tr h₀ := by
  obtain ⟨s, hs, rfl⟩ := Option.map_eq_some_iff.1 hopen
  have hfresh := Btree.fresh_of_opened hs
  refine ⟨fun w hne ↦ absurd ?_ hne, fun w hw ↦ ?_, m, h₀holds⟩
  · show (s.nodesLoaded w <|> s.storage.pages w) = s.storage.pages w
    rw [hfresh.nodesLoaded]
    rfl
  · exact absurd (hfresh.modified ▸ hw) List.not_mem_nil

private theorem Tidy.exists_flush (ht : Tidy tr h) : ∃ h', h.flush = some h' ∧ h'.Decodes := by
  obtain ⟨h', hflush⟩ : ∃ h', h.flush = some h' := by
    obtain ⟨m, hm⟩ := ht.holds
    unfold Handle.flush
    split
    · exact ⟨_, rfl⟩
    · next hsize => exact ⟨_, by rw [Btree.flush_eq hm.unlooped ht.loaded hsize, Option.map_some]⟩
  exact ⟨h', hflush, (ht.flush hflush).2⟩

/-- In runs that pass over no interior node the registration is complete, and after each flush the
stored pages are the tree in memory. -/
theorem complete_of_reached [Inhabited V] {h₀ : Handle K V} {m : OrderedMap K V}
    (hopen : opened st = some h₀) (hstored : Btree.Holds tr h₀.tree m.pairs)
    (hs : Reached (step tr) (Registers tr) h₀ h) :
    h.Complete ∧ ∃ h', h.flush = some h' ∧ h'.Decodes := by
  have htidy : Tidy tr h := hs.invariant (Tidy tr) (tidy_opened hopen hstored)
    fun _ _ a ht ha hstep ↦ tidy_step a ht ha hstep
  exact ⟨htidy.complete, htidy.exists_flush⟩

instance [Inhabited V] (h : Handle K V) (a : TreeAction K V) : Decidable (h.Registers tr a) :=
  match a with
  | .work op reloaded => inferInstanceAs (Decidable (h.passedOver tr op reloaded = []))
  | .atEnd | .flush => inferInstanceAs (Decidable True)
  | .reopen => inferInstanceAs (Decidable False)

/-- The tree on the storage without pages. -/
def empty : Handle ℕ ℕ := ⟨Btree.blank Storage.empty, 0⟩

/-- The empty storage opens as an empty tree. -/
theorem opened_empty : opened Storage.empty = some empty := rfl

private theorem holds_empty : Btree.Holds tr empty.tree (OrderedMap.empty : OrderedMap ℕ ℕ).pairs :=
  (Btree.holds_blank Storage.unlooped_empty rfl).2

/-- A leaf is flushed twice and changed after each flush. -/
theorem complete_of_reached_twice :
    ∃ h, runAllowed (step Traits.perPage) (Registers Traits.perPage) empty
        [.work (.insert 3 30) [], .flush, .work (.insert 5 50) [], .work (.erase 3) [],
          .flush, .work (.assign 5 51) []] = some h ∧
      h.Complete ∧ ∃ h', h.flush = some h' ∧ h'.Decodes := by
  have hrun : (runAllowed (step Traits.perPage) (Registers Traits.perPage) empty
      [.work (.insert 3 30) [], .flush, .work (.insert 5 50) [], .work (.erase 3) [],
        .flush, .work (.assign 5 51) []]).isSome := by decide +kernel
  obtain ⟨h, hs⟩ := Option.isSome_iff_exists.1 hrun
  exact ⟨h, hs, complete_of_reached opened_empty holds_empty (reached_of_runAllowed .start hs)⟩

/-- Four slots in every node. -/
def four : Traits := ⟨4, 4, by decide, by decide, by decide⟩

/-- The root is made by a split, saved, and written to at the next split. -/
def resplit : List (TreeAction ℕ ℕ) :=
  [.work (.insert 1 10) [], .work (.insert 2 20) [], .work (.insert 3 30) [],
    .work (.insert 4 40) [], .work (.insert 5 50) [], .flush,
    .work (.insert 6 60) [], .work (.insert 7 70) []]

/-- The steps on one tree object. -/
def OnObject (_ : Handle K V) : TreeAction K V → Prop
  | .reopen => False
  | _ => True

instance (h : Handle K V) (a : TreeAction K V) : Decidable (h.OnObject a) :=
  match a with
  | .work .. | .atEnd | .flush => inferInstanceAs (Decidable True)
  | .reopen => inferInstanceAs (Decidable False)

/-- The root has three children in memory, two on its page, and is not registered. -/
theorem not_complete_resplit :
    ¬ ∀ (st : Storage ℕ ℕ) (h₀ h : Handle ℕ ℕ) (m : OrderedMap ℕ ℕ), opened st = some h₀ →
      Btree.Holds four h₀.tree m.pairs → Reached (step four) OnObject h₀ h → h.Complete := by
  intro hall
  have hrun : (runAllowed (step four) OnObject empty resplit).map (fun h ↦
      (h.tree.root, (h.tree.load h.tree.root).map Node.occupants,
        (h.tree.storage.pages h.tree.root).map Node.occupants,
        decide (h.tree.root ∈ h.tree.modified))) = some (3, some 2, some 1, false) := by
    decide +kernel
  obtain ⟨h, hs, hvalue⟩ := Option.map_eq_some_iff.1 hrun
  simp only [Prod.mk.injEq, decide_eq_false_iff_not] at hvalue
  obtain ⟨hroot, hload, hpage, hmod⟩ := hvalue
  have hreached : Reached (step four) OnObject empty h := reached_of_runAllowed .start hs
  refine hmod (hall _ _ h _ opened_empty holds_empty hreached 0 _
    ⟨by rw [hroot]; decide, .refl _⟩ fun heq ↦ ?_)
  rw [heq, hpage] at hload
  exact absurd hload (by decide)

end Handle

end LibSpaces.Stx
