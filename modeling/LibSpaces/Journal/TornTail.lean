import LibSpaces.Journal.Recover

/-!
# Recovery of a torn journal

A journal of complete transactions is cut at some byte. Recovery should keep the
transactions whose commit header survived and drop the others
(`src/src/storage/transactions/journal.cpp:213–313`). What it does at every cut, and at
which cuts that is not what it should do.
-/

namespace LibSpaces.Journal

open LibSpaces.Base

/-- The pages of one transaction, in the order in which they are journalled. -/
abbrev Transaction := List Page

namespace Transaction

/-- The items of a transaction: its pages, then its commit boundary. -/
def items (t : Transaction) : List Item := t.map Item.page ++ [.commit]

/-- The pages as they are to be written. -/
def writes (t : Transaction) : List Write := t.map Page.toWrite

/-- The bytes of the pages, up to the commit header. -/
def pagesSize (t : Transaction) : ℕ := (t.map (fun p ↦ (Item.page p).size)).sum

end Transaction

/-- The journal of a series of complete transactions, numbered from `sequence` on. -/
def journalOf (sequence : UInt64) (ts : List Transaction) : Bytes :=
  journalBytes sequence (ts.flatMap Transaction.items)

/-- The pages of the transactions whose commit header lies wholly before the cut. -/
def committedBefore : ℕ → List Transaction → List Write
  | _, [] => []
  | cut, t :: ts =>
    if t.pagesSize + headerSize ≤ cut then
      t.writes ++ committedBefore (cut - (t.pagesSize + Item.commit.size)) ts
    else []

/-- The cuts that recovery handles: none of the three defects is reached. The directory check
must pass for the pages of the complete transactions, a torn sequence number that is taken for
a foreign one must have nothing to discard, and a commit header that is torn after its command
byte must have no page to commit early. -/
def CutHarmless (inDirectory : Bytes → Bool) (sequence : UInt64) (ts : List Transaction)
    (cut : ℕ) : Prop :=
  (∀ w ∈ committedBefore cut ts, isValidStorageDirectory inDirectory w.name = true) ∧
  let (whole, torn) := splitAtCut cut (ts.flatMap Transaction.items)
  match torn with
  | none => True
  | some (i, count) =>
    (TornSequence (lastSequence 0 sequence whole.length)
        (sequence + UInt64.ofNat whole.length) count →
      committedBefore cut ts = []) ∧
    (i.isCommit = true → 9 ≤ count → count < headerSize →
      ∀ w ∈ (Replay.empty.run (isValidStorageDirectory inDirectory) whole).waiting,
        isValidStorageDirectory inDirectory w.name = false)

private theorem splitAtCut_append_of_le (is js : List Item) (cut : ℕ)
    (h : (is.map Item.size).sum ≤ cut) :
    splitAtCut cut (is ++ js) =
      (is ++ (splitAtCut (cut - (is.map Item.size).sum) js).1,
        (splitAtCut (cut - (is.map Item.size).sum) js).2) := by
  induction is generalizing cut with
  | nil => simp
  | cons i is ih =>
    simp only [List.map_cons, List.sum_cons] at h
    rw [List.cons_append, splitAtCut, if_pos (by omega), ih _ (by omega)]
    simp only [List.map_cons, List.sum_cons, Nat.sub_sub, List.cons_append]

private theorem splitAtCut_pages (ps : List Page) (js : List Item) (cut : ℕ)
    (h : cut < Transaction.pagesSize ps) :
    ∃ n p count, splitAtCut cut (ps.map Item.page ++ js) =
      ((ps.take n).map Item.page, some (.page p, count)) := by
  induction ps generalizing cut with
  | nil => simp [Transaction.pagesSize] at h
  | cons p ps ih =>
    rw [List.map_cons, List.cons_append, splitAtCut]
    split
    · have hrest : cut - (Item.page p).size < Transaction.pagesSize ps := by
        simp only [Transaction.pagesSize, List.map_cons, List.sum_cons] at h ⊢
        omega
      obtain ⟨n, q, count, hsplit⟩ := ih _ hrest
      exact ⟨n + 1, q, count, by rw [hsplit]; rfl⟩
    · exact ⟨0, p, cut, rfl⟩

/-- Pages only wait. -/
theorem run_pages (valid : Bytes → Bool) (r : Replay) (ps : List Page) :
    r.run valid (ps.map Item.page) = ⟨r.waiting ++ ps.map Page.toWrite, r.committed⟩ := by
  induction ps generalizing r with
  | nil => simp
  | cons p ps ih => simp [ih, Replay.step]

/-- What recovery commits is what all storages would have committed, less the pages whose
storage fails the check; what waits does not depend on it. -/
theorem run_valid (valid : Bytes → Bool) (r : Replay) (is : List Item) :
    (⟨r.waiting, r.committed.filter (fun w ↦ valid w.name)⟩ : Replay).run valid is =
      ⟨(r.run (fun _ ↦ true) is).waiting,
        (r.run (fun _ ↦ true) is).committed.filter (fun w ↦ valid w.name)⟩ := by
  induction is generalizing r with
  | nil => rfl
  | cons i is ih =>
    rw [Replay.run_cons, Replay.run_cons, ← ih]
    cases i with
    | page p => rfl
    | commit => simp [Replay.step]

/-- The pages that all storages would have committed. -/
private theorem run_empty_valid (valid : Bytes → Bool) (is : List Item) :
    Replay.empty.run valid is =
      ⟨(Replay.empty.run (fun _ ↦ true) is).waiting,
        (Replay.empty.run (fun _ ↦ true) is).committed.filter (fun w ↦ valid w.name)⟩ :=
  run_valid valid Replay.empty is

/-- A whole transaction leaves nothing waiting. -/
theorem run_transaction (r : Replay) (t : Transaction) (h : r.waiting = []) :
    r.run (fun _ ↦ true) t.items = ⟨[], r.committed ++ t.writes⟩ := by
  rw [Transaction.items, Replay.run_append, run_pages, h]
  simp [Replay.step, Transaction.writes]

@[simp] private theorem committedBefore_zero (ts : List Transaction) :
    committedBefore 0 ts = [] := by
  cases ts with
  | nil => rfl
  | cons t ts => simp [committedBefore, headerSize]

private theorem sum_size_pages (t : Transaction) :
    ((t.map Item.page).map Item.size).sum = t.pagesSize := by
  simp [Transaction.pagesSize, Function.comp_def]

/-- What should be recovered, read off the whole items and the torn one. -/
theorem committedBefore_eq (cut : ℕ) (ts : List Transaction) (r : Replay)
    (h : r.waiting = []) :
    r.committed ++ committedBefore cut ts =
      (r.run (fun _ ↦ true) (splitAtCut cut (ts.flatMap Transaction.items)).1).committed ++
        match (splitAtCut cut (ts.flatMap Transaction.items)).2 with
        | none => []
        | some (i, count) =>
          if i.isCommit = true ∧ headerSize ≤ count then
            (r.run (fun _ ↦ true) (splitAtCut cut (ts.flatMap Transaction.items)).1).waiting
          else [] := by
  induction ts generalizing cut r with
  | nil => simp [committedBefore, splitAtCut]
  | cons t ts ih =>
    have hheader : headerSize ≤ Item.commit.size := Item.commit.headerSize_le_size
    rw [List.flatMap_cons, committedBefore]
    by_cases hpages : t.pagesSize ≤ cut
    · rw [Transaction.items, List.append_assoc,
        splitAtCut_append_of_le _ _ _ (by rw [sum_size_pages]; exact hpages), sum_size_pages]
      by_cases hwhole : t.pagesSize + Item.commit.size ≤ cut
      · -- the whole transaction lies before the cut
        have hcut : cut - t.pagesSize - Item.commit.size =
            cut - (t.pagesSize + Item.commit.size) := Nat.sub_sub _ _ _
        have hrun := run_transaction r t h
        rw [Transaction.items, Replay.run_append] at hrun
        have hih := ih (cut - (t.pagesSize + Item.commit.size))
            ⟨[], r.committed ++ t.writes⟩ rfl
        rw [List.singleton_append, splitAtCut, if_pos (by omega), if_pos (by omega), hcut]
        simp only [Replay.run_append, Replay.run_cons, Replay.run_nil] at hrun ⊢
        rw [hrun, ← List.append_assoc]
        exact hih
      · -- the cut falls into the commit boundary
        have hcut : cut - (t.pagesSize + Item.commit.size) = 0 := by omega
        have htorn : splitAtCut (cut - t.pagesSize)
            ([Item.commit] ++ ts.flatMap Transaction.items) =
            ([], some (Item.commit, cut - t.pagesSize)) := by
          rw [List.singleton_append, splitAtCut, if_neg (by omega)]
        simp only [htorn, List.append_nil, run_pages, hcut, committedBefore_zero, h]
        by_cases hh : t.pagesSize + headerSize ≤ cut
        · have hcount : headerSize ≤ cut - t.pagesSize := by omega
          simp [hh, hcount, Item.isCommit, Transaction.writes]
        · have hcount : ¬headerSize ≤ cut - t.pagesSize := by omega
          simp [hh, hcount]
    · -- the cut falls into a page
      obtain ⟨n, p, count, hsplit⟩ :=
        splitAtCut_pages t ([Item.commit] ++ ts.flatMap Transaction.items)
        cut (by omega)
      rw [Transaction.items, List.append_assoc, hsplit, if_neg (by omega)]
      dsimp only
      rw [run_pages]
      simp [Item.isCommit]

/-- What recovery commits at a cut: where the sequence number is torn, nothing; where a
commit boundary kept its command byte, also the pages that wait for it. -/
theorem recover_cut (inDirectory : Bytes → Bool) (sequence : UInt64) (ts : List Transaction)
    (cut : ℕ) :
    recover inDirectory ((journalOf sequence ts).take cut) =
      some (match splitAtCut cut (ts.flatMap Transaction.items) with
        | (whole, none) =>
          (Replay.empty.run (isValidStorageDirectory inDirectory) whole).committed
        | (whole, some (i, count)) =>
          if TornSequence (lastSequence 0 sequence whole.length)
            (sequence + UInt64.ofNat whole.length) count then []
          else (Replay.empty.run (isValidStorageDirectory inDirectory) whole).committed ++
            if i.isCommit = true ∧ 9 ≤ count then
              (Replay.empty.run (isValidStorageDirectory inDirectory) whole).waiting.filter
                (fun w ↦ isValidStorageDirectory inDirectory w.name) else []) := by
  rw [journalOf, take_journalBytes]
  cases hsplit : splitAtCut cut (ts.flatMap Transaction.items) with
  | mk whole torn =>
    cases torn with
    | none => simpa using recover_journalBytes inDirectory sequence whole
    | some piece =>
      obtain ⟨i, count⟩ := piece
      exact recover_append_torn inDirectory sequence whole i count
        (lt_size_of_splitAtCut _ cut i count (by rw [hsplit]))

/-- Filtered pages followed by more of them are all pages of the first list if and only if the
check passes for these and for none of the others. -/
private theorem filter_append_filter_eq_iff {α : Type} (q : α → Bool) (xs ys : List α) :
    xs.filter q ++ ys.filter q = xs ↔ (∀ x ∈ xs, q x = true) ∧ ∀ y ∈ ys, q y = false := by
  constructor
  · intro h
    have hxs : ∀ x ∈ xs, q x = true := by
      intro x hx
      rw [← h, ← List.filter_append] at hx
      exact (List.mem_filter.mp hx).2
    rw [List.filter_eq_self.mpr hxs, List.append_right_eq_self, List.filter_eq_nil_iff] at h
    exact ⟨hxs, fun y hy ↦ by simpa using h y hy⟩
  · rintro ⟨hxs, hys⟩
    have hnil : ys.filter q = [] := List.filter_eq_nil_iff.mpr fun y hy ↦ by simp [hys y hy]
    rw [List.filter_eq_self.mpr hxs, hnil, List.append_nil]

/-- Recovery of a cut journal commits the transactions whose commit header is whole, and
nothing else, at exactly the harmless cuts. -/
theorem recover_cut_eq_committedBefore_iff (inDirectory : Bytes → Bool) (sequence : UInt64)
    (ts : List Transaction) (cut : ℕ) :
    recover inDirectory ((journalOf sequence ts).take cut) = some (committedBefore cut ts) ↔
      CutHarmless inDirectory sequence ts cut := by
  have hexpected := committedBefore_eq cut ts Replay.empty rfl
  have hempty : Replay.empty.committed = [] := rfl
  rw [hempty, List.nil_append] at hexpected
  rw [recover_cut, CutHarmless, hexpected]
  cases hsplit : splitAtCut cut (ts.flatMap Transaction.items) with
  | mk whole torn =>
    cases torn with
    | none => simp [run_empty_valid (isValidStorageDirectory inDirectory), List.filter_eq_self]
    | some piece =>
      obtain ⟨i, count⟩ := piece
      dsimp only
      rw [run_empty_valid (isValidStorageDirectory inDirectory)]
      dsimp only
      by_cases ht : TornSequence (lastSequence 0 sequence whole.length)
          (sequence + UInt64.ofNat whole.length) count
      · -- a torn number is shorter than eight bytes, so no command byte arrived
        have hshort : count < 8 := by
          by_contra hlong
          exact ht.2.2 (lowBytes_of_le _ count (by omega))
        have h9 : ¬9 ≤ count := by omega
        have h40 : ¬headerSize ≤ count := by simp only [headerSize]; omega
        simp only [ht, h9, h40, if_true, and_false, if_false, List.append_nil, Option.some.injEq,
          true_imp_iff, false_imp_iff, imp_true_iff, and_true]
        exact ⟨fun h ↦ by simp [← h], fun h ↦ h.2.symm⟩
      · by_cases h9 : 9 ≤ count
        · cases hi : i.isCommit with
          | false => simp [ht, List.filter_eq_self]
          | true =>
            by_cases h40 : headerSize ≤ count
            · -- the header is whole: its pages are owed
              simp only [ht, h9, h40, Nat.not_lt.mpr h40, and_self, if_true, if_false,
                ← List.filter_append, Option.some.injEq, List.filter_eq_self, false_imp_iff,
                imp_true_iff, and_true]
            · -- the boundary is carried out although its header is torn
              have hlt := Nat.lt_of_not_le h40
              simp [ht, h9, h40, hlt, filter_append_filter_eq_iff]
        · have h40 : ¬headerSize ≤ count := by simp only [headerSize]; omega
          simp [ht, h9, h40, List.filter_eq_self]

/-- A page of one byte in storage "./a". -/
def bytePage : Page where
  name := [46, 47, 97]
  address := 7
  buffer := [1]
  name_lt := pathA_lt
  buffer_lt := byte_lt

/-- A page of one byte in storage "a", a name too short for the directory check. -/
def shortPage : Page where
  name := [97]
  address := 7
  buffer := [1]
  name_lt := shortName_lt
  buffer_lt := byte_lt

/-- The defects on journals numbered from one, every directory being there. In the first the
page that follows 128 complete transactions is cut after one byte of its number, 257, and all
128 are lost. In the second the only commit boundary is cut after its command byte, and the
page is committed all the same. In the third nothing is cut off, and the page of storage "a"
is passed over. -/
theorem recover_cut_ne_committedBefore :
    (recover (fun _ ↦ true) ((journalOf 1 (List.replicate 129 [bytePage])).take 11521) = some [] ∧
      committedBefore 11521 (List.replicate 129 [bytePage]) ≠ []) ∧
    (recover (fun _ ↦ true) ((journalOf 1 [[bytePage]]).take 53) = some [bytePage.toWrite] ∧
      committedBefore 53 [[bytePage]] = []) ∧
    (recover (fun _ ↦ true) ((journalOf 1 [[shortPage]]).take 88) = some [] ∧
      committedBefore 88 [[shortPage]] = [shortPage.toWrite]) := by
  refine ⟨⟨?_, ?_⟩, ⟨by decide +kernel, by decide⟩, by decide +kernel, by decide⟩
  · have hitems : (List.replicate 129 [bytePage]).flatMap Transaction.items =
        (List.replicate 128 [bytePage]).flatMap Transaction.items ++
          Transaction.items [bytePage] := by
      rw [show 129 = 128 + 1 from rfl, List.replicate_succ', List.flatMap_append,
        List.flatMap_singleton]
    have hsize : (((List.replicate 128 [bytePage]).flatMap Transaction.items).map Item.size).sum =
        11520 := by decide +kernel
    have hlength : ((List.replicate 128 [bytePage]).flatMap Transaction.items).length = 256 := by
      decide +kernel
    have htorn : TornSequence (lastSequence 0 1 256) (1 + UInt64.ofNat 256) 1 := by decide
    have hpiece : splitAtCut (11521 - 11520) (Transaction.items [bytePage]) =
        ([], some (.page bytePage, 1)) := rfl
    rw [recover_cut, hitems, splitAtCut_append_of_le _ _ _ (by rw [hsize]; decide), hsize, hpiece]
    dsimp only
    rw [List.append_nil, hlength, if_pos htorn]
  · rw [List.replicate_succ, committedBefore, if_pos (by decide)]
    simp [Transaction.writes]

end LibSpaces.Journal
