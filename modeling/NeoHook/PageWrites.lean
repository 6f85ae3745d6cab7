import NeoHook.Quiescence
import NeoHook.Lib.Align

/-!
# Writing through page protections

`mem.rs`: the pages of a range are made writable one by one, keeping each page's execute
permission, the bytes are stored, and every page gets its own protection back.  Long ranges go in
batches of at most eight pages.

The state holds the protection of every page and, to speak about intermediate steps, every map of
protections that was ever in force.
-/

namespace NeoHook

open ByteMap

/-! ### Protections -/

def pageReadonly : ℕ := 0x02
def pageReadwrite : ℕ := 0x04
def pageWritecopy : ℕ := 0x08
def pageExecute : ℕ := 0x10
def pageExecuteRead : ℕ := 0x20
def pageExecuteReadwrite : ℕ := 0x40
def pageExecuteWritecopy : ℕ := 0x80

def executable (protect : ℕ) : Bool :=
  protect &&& (pageExecute ||| pageExecuteRead ||| pageExecuteReadwrite ||| pageExecuteWritecopy) ≠ 0

def writable (protect : ℕ) : Bool :=
  protect &&& (pageReadwrite ||| pageWritecopy ||| pageExecuteReadwrite ||| pageExecuteWritecopy) ≠ 0

def detourPageProtectAdjustExecute (oldProtect newProtect : ℕ) : ℕ :=
  if executable oldProtect then
    if newProtect = pageReadonly then pageExecuteRead
    else if newProtect = pageReadwrite then pageExecuteReadwrite
    else if newProtect = pageWritecopy then pageExecuteWritecopy
    else newProtect
  else newProtect

/-- Memory with its protections. -/
structure Pages where
  mem : ℕ → UInt8
  /-- The protection of the page that starts at an address. -/
  prot : ℕ → ℕ
  /-- How many pages were tried so far. -/
  tries : ℕ
  /-- The protections after each change, the latest first. -/
  history : List (ℕ → ℕ)
  /-- A store met a page that is not writable. -/
  faulted : Bool

/-- Which attempts to change a protection fail, by their number: in `VirtualQuery` or in
`VirtualProtect`. -/
structure ProtectOs where
  queryFails : ℕ → Bool
  protectFails : ℕ → Bool

/-- The start of the page that holds an address. -/
def pageOf (addr : ℕ) : ℕ := Align.down 64 addr pageSize

namespace Pages

/-- `VirtualProtect` for one page. -/
def protect (s : Pages) (page new : ℕ) : Pages :=
  { s with
    prot := Function.update s.prot page new
    history := Function.update s.prot page new :: s.history }

/-- Copies bytes into memory. -/
def store (s : Pages) (a : ℕ) (bs : List UInt8) : Pages :=
  { s with
    mem := write s.mem a bs
    faulted := s.faulted || !(List.range bs.length).all fun i => writable (s.prot (pageOf (a + i))) }

end Pages

section Os

variable (os : ProtectOs)

/-- `protect_page_same_execute`: the page's previous protection. -/
def protectPageSameExecute (page newProtect : ℕ) (s : Pages) : Option ℕ × Pages :=
  let s' := { s with tries := s.tries + 1 }
  if os.queryFails s.tries then (none, s')
  else if os.protectFails s.tries then (none, s')
  else (some (s.prot page),
    s'.protect page (detourPageProtectAdjustExecute (s.prot page) newProtect))

/-- The saved protections of consecutive pages. -/
structure PageProtections where
  firstPage : ℕ
  old : List ℕ

/-- The loop of `restore`, from the `i`-th page on. -/
def PageProtections.restoreLoop (firstPage : ℕ) : ℕ → List ℕ → Pages → Pages
  | _, [], s => s
  | i, old :: rest, s =>
    restoreLoop firstPage (i + 1) rest (s.protect (firstPage + i * pageSize) old)

def PageProtections.restore (saved : PageProtections) (s : Pages) : Pages :=
  restoreLoop saved.firstPage 0 saved.old s

/-- The loop of `change` over the pages that are left. -/
def PageProtections.changeLoop (firstPage newProtect : ℕ) :
    ℕ → List ℕ → Pages → Option PageProtections × Pages
  | 0, old, s => (some ⟨firstPage, old⟩, s)
  | left + 1, old, s =>
    match protectPageSameExecute os (firstPage + old.length * pageSize) newProtect s with
    | (some previous, s) => changeLoop firstPage newProtect left (old ++ [previous]) s
    | (none, s) => (none, (PageProtections.mk firstPage old).restore s)

def maxBatchPages : ℕ := 8

/-- How many pages a range touches. -/
def pagesOf (start len : ℕ) : ℕ := (pageOf (start + len - 1) - pageOf start) / pageSize + 1

def PageProtections.change (start len newProtect : ℕ) (s : Pages) :
    Option PageProtections × Pages :=
  changeLoop os (pageOf start) newProtect (min (pagesOf start len) maxBatchPages) [] s

end Os

/-! ### Batches -/

/-- Where the batch that starts at `chunk` ends. -/
def batchEnd (end_ chunk : ℕ) : ℕ :=
  min (saturatingAdd (pageOf chunk) (maxBatchPages * pageSize)) end_

theorem pageOf_le {addr : ℕ} (word : addr < 2 ^ 64) : pageOf addr ≤ addr :=
  Align.down_le (k := 12) (by decide) word

theorem lt_pageOf_add {addr : ℕ} (word : addr < 2 ^ 64) : addr < pageOf addr + pageSize :=
  Align.lt_down_add (k := 12) (by decide) word

theorem dvd_pageOf {addr : ℕ} (word : addr < 2 ^ 64) : pageSize ∣ pageOf addr :=
  Align.dvd_down (k := 12) (by decide) word

theorem lt_batchEnd {end_ chunk : ℕ} (room : end_ ≤ usizeMax) (inside : chunk < end_) :
    chunk < batchEnd end_ chunk := by
  unfold usizeMax at room
  have := lt_pageOf_add (show chunk < 2 ^ 64 by omega)
  unfold batchEnd saturatingAdd usizeMax maxBatchPages
  unfold pageSize at *
  omega

section Batches

variable {σ : Type}

/-- `for_each_page_batch`, where `f` passes a state on; the caller ensures that the range ends
inside the address space. -/
def forEachPageBatch (f : ℕ → ℕ → σ → Bool × σ) (end_ : ℕ) (room : end_ ≤ usizeMax) (chunk : ℕ)
    (s : σ) : Bool × σ :=
  if chunk < end_ then
    match f chunk (batchEnd end_ chunk - chunk) s with
    | (false, s) => (false, s)
    | (true, s) => forEachPageBatch f end_ room (batchEnd end_ chunk) s
  else (true, s)
termination_by end_ - chunk
decreasing_by
  have := lt_batchEnd room ‹chunk < end_›
  omega

/-- The batches in order. -/
def pageBatches (end_ : ℕ) (room : end_ ≤ usizeMax) (chunk : ℕ) : List (ℕ × ℕ) :=
  if chunk < end_ then
    (chunk, batchEnd end_ chunk - chunk) :: pageBatches end_ room (batchEnd end_ chunk)
  else []
termination_by end_ - chunk
decreasing_by
  have := lt_batchEnd room ‹chunk < end_›
  omega

/-- Calls `f` for one batch after the other until it fails. -/
def runBatches (f : ℕ → ℕ → σ → Bool × σ) : List (ℕ × ℕ) → σ → Bool × σ
  | [], s => (true, s)
  | (chunk, len) :: rest, s =>
    match f chunk len s with
    | (false, s) => (false, s)
    | (true, s) => runBatches f rest s

/-- The batches lie one behind the other from `chunk` to `end_`, none is empty, and none touches
more than eight pages. -/
def Splits (end_ : ℕ) : ℕ → List (ℕ × ℕ) → Prop
  | chunk, [] => chunk = end_
  | chunk, (first, len) :: rest =>
    first = chunk ∧ 0 < len ∧ pagesOf first len ≤ maxBatchPages ∧ Splits end_ (first + len) rest

theorem forEachPageBatch_eq (f : ℕ → ℕ → σ → Bool × σ) (end_ : ℕ) (room : end_ ≤ usizeMax)
    (chunk : ℕ) (s : σ) :
    forEachPageBatch f end_ room chunk s = runBatches f (pageBatches end_ room chunk) s := by
  induction chunk using pageBatches.induct end_ room generalizing s with
  | case1 chunk inside ih =>
    rw [forEachPageBatch, pageBatches, if_pos inside, if_pos inside, runBatches]
    rcases f chunk (batchEnd end_ chunk - chunk) s with ⟨_ | _, s'⟩
    · rfl
    · exact ih s'
  | case2 chunk outside =>
    rw [forEachPageBatch, pageBatches, if_neg outside, if_neg outside]
    rfl

/-- A range of at most eight pages from the start of its first page on touches as many. -/
theorem pagesOf_le {chunk len n : ℕ} (word : chunk + len ≤ 2 ^ 64) (some_bytes : 0 < len)
    (short : chunk + len ≤ pageOf chunk + n * pageSize) : pagesOf chunk len ≤ n := by
  have low := pageOf_le (show chunk < 2 ^ 64 by omega)
  have last := pageOf_le (show chunk + len - 1 < 2 ^ 64 by omega)
  unfold pagesOf pageSize at *
  omega

theorem pageBatches_splits (end_ : ℕ) (room : end_ ≤ usizeMax) (chunk : ℕ) (le : chunk ≤ end_) :
    Splits end_ chunk (pageBatches end_ room chunk) := by
  induction chunk using pageBatches.induct end_ room with
  | case1 chunk inside ih =>
    rw [pageBatches, if_pos inside]
    have further := lt_batchEnd room inside
    have stop : batchEnd end_ chunk ≤ end_ := min_le_right _ _
    have short : batchEnd end_ chunk ≤ pageOf chunk + maxBatchPages * pageSize :=
      (min_le_left _ _).trans (min_le_left _ _)
    have rest := ih stop
    unfold usizeMax at room
    refine ⟨rfl, by omega, pagesOf_le (by omega) (by omega) (by omega), ?_⟩
    rwa [Nat.add_sub_cancel' further.le]
  | case2 chunk outside =>
    rw [pageBatches, if_neg outside]
    exact le_antisymm le (Nat.not_lt.1 outside)

end Batches

/-! ### `write_pages` -/

section Write

variable (os : ProtectOs)

/-- One batch of `write_pages`; `orig` is whether the previous bytes are saved, which are appended
to those of the batches before. -/
def writeChunk (start : ℕ) (src : List UInt8) (orig : Bool) (chunk chunkLen : ℕ)
    (s : Pages × List UInt8) : Bool × Pages × List UInt8 :=
  match PageProtections.change os chunk chunkLen pageReadwrite s.1 with
  | (none, pages) => (false, pages, s.2)
  | (some saved, pages) =>
    let bytes := if orig then s.2 ++ read pages.mem chunk chunkLen else s.2
    let pages := pages.store chunk ((src.drop (chunk - start)).take chunkLen)
    (true, saved.restore pages, bytes)

def writePages (start : ℕ) (src : List UInt8) (orig : Bool) (s : Pages) :
    Bool × Pages × List UInt8 :=
  if room : start + src.length ≤ usizeMax then
    forEachPageBatch (writeChunk os start src orig) (start + src.length) room start (s, [])
  else (false, s, [])

end Write

/-! ### Lifting and restoring -/

/-- No page that was executable under `prot` is not executable under `h`. -/
def KeepsExecute (prot h : ℕ → ℕ) : Prop := ∀ page, executable (prot page) → executable (h page)

/-- The protections with the pages from the `i`-th up to the `k`-th lifted. -/
structure Lifted (prot : ℕ → ℕ) (firstPage new i k : ℕ) (now : ℕ → ℕ) : Prop where
  inside : ∀ j, i ≤ j → j < k → now (firstPage + j * pageSize) =
    detourPageProtectAdjustExecute (prot (firstPage + j * pageSize)) new
  outside : ∀ page, (∀ j, i ≤ j → j < k → page ≠ firstPage + j * pageSize) → now page = prot page

section Lift

variable {prot now : ℕ → ℕ} {firstPage i k : ℕ}

theorem page_inj {j j' : ℕ} (h : firstPage + j * pageSize = firstPage + j' * pageSize) : j = j' := by
  unfold pageSize at h
  omega

theorem Lifted.refl (prot : ℕ → ℕ) (firstPage new i : ℕ) : Lifted prot firstPage new i i prot where
  inside := fun j low high => by omega
  outside := fun _ _ => rfl

theorem Lifted.eq {new : ℕ} (h : Lifted prot firstPage new k k now) : now = prot := by
  funext page
  exact h.outside page fun j low high => by omega

/-- Lifting one page more. -/
theorem Lifted.lift {new : ℕ} (h : Lifted prot firstPage new 0 k now) :
    Lifted prot firstPage new 0 (k + 1) (Function.update now (firstPage + k * pageSize)
      (detourPageProtectAdjustExecute (now (firstPage + k * pageSize)) new)) where
  inside := by
    intro j low high
    by_cases eq : j = k
    · subst eq
      rw [Function.update_self, h.outside _ fun j' _ high' eq => by have := page_inj eq; omega]
    · rw [Function.update_of_ne fun same => eq (page_inj same)]
      exact h.inside j low (by omega)
  outside := by
    intro page away
    rw [Function.update_of_ne (away k (Nat.zero_le k) (by omega))]
    exact h.outside page fun j low high => away j low (by omega)

/-- Putting back the first page that is still lifted. -/
theorem Lifted.putBack {new : ℕ} (h : Lifted prot firstPage new i k now) :
    Lifted prot firstPage new (i + 1) k (Function.update now (firstPage + i * pageSize)
      (prot (firstPage + i * pageSize))) where
  inside := by
    intro j low high
    rw [Function.update_of_ne fun same => by have := page_inj same; omega]
    exact h.inside j (by omega) high
  outside := by
    intro page away
    by_cases eq : page = firstPage + i * pageSize
    · rw [eq, Function.update_self]
    · rw [Function.update_of_ne eq]
      refine h.outside page fun j low high => ?_
      by_cases first : j = i
      · rwa [first]
      · exact away j (by omega) high

theorem executable_adjust {old : ℕ} (h : executable old) :
    executable (detourPageProtectAdjustExecute old pageReadwrite) := by
  rw [detourPageProtectAdjustExecute, if_pos h]
  decide

theorem writable_adjust (old : ℕ) :
    writable (detourPageProtectAdjustExecute old pageReadwrite) := by
  unfold detourPageProtectAdjustExecute
  split_ifs <;> first | decide | contradiction

/-- Lifted pages stay executable. -/
theorem Lifted.keepsExecute (h : Lifted prot firstPage pageReadwrite i k now) :
    KeepsExecute prot now := by
  intro page exec
  by_cases lifted : ∃ j, i ≤ j ∧ j < k ∧ page = firstPage + j * pageSize
  · obtain ⟨j, low, high, rfl⟩ := lifted
    rw [h.inside j low high]
    exact executable_adjust exec
  · rw [h.outside page fun j low high eq => lifted ⟨j, low, high, eq⟩]
    exact exec

end Lift

/-- `s'` came from `s` by changes of protections that kept the executable pages of `prot`. -/
structure Changed (prot : ℕ → ℕ) (s s' : Pages) : Prop where
  mem : s'.mem = s.mem
  faulted : s'.faulted = s.faulted
  history : ∀ h ∈ s'.history, h ∈ s.history ∨ KeepsExecute prot h

namespace Changed

variable {prot : ℕ → ℕ} {s s' s'' : Pages}

theorem trans (h : Changed prot s s') (h' : Changed prot s' s'') : Changed prot s s'' where
  mem := h'.mem.trans h.mem
  faulted := h'.faulted.trans h.faulted
  history := fun x mem => (h'.history x mem).elim (h.history x) .inr

theorem tried (prot : ℕ → ℕ) (s : Pages) (n : ℕ) : Changed prot s { s with tries := n } :=
  ⟨rfl, rfl, fun _ mem => .inl mem⟩

theorem protect {page new : ℕ} (keeps : KeepsExecute prot (Function.update s.prot page new)) :
    Changed prot s (s.protect page new) where
  mem := rfl
  faulted := rfl
  history := by
    intro h mem
    rcases List.mem_cons.1 mem with rfl | mem
    · exact .inr keeps
    · exact .inl mem

end Changed

namespace PageProtections

variable {prot : ℕ → ℕ} {firstPage : ℕ}

/-- Restoring puts back every page that was lifted. -/
theorem restoreLoop_spec {i k : ℕ} {old : List ℕ} {s : Pages}
    (lifted : Lifted prot firstPage pageReadwrite i k s.prot)
    (saved : old = (List.range' i (k - i)).map fun j => prot (firstPage + j * pageSize))
    (le : i ≤ k) :
    (restoreLoop firstPage i old s).prot = prot ∧
      Changed prot s (restoreLoop firstPage i old s) := by
  induction old generalizing i s with
  | nil =>
    have done : i = k := by
      have := congrArg List.length saved
      simp only [List.length_nil, List.length_map, List.length_range'] at this
      omega
    subst done
    exact ⟨lifted.eq, rfl, rfl, fun _ mem => .inl mem⟩
  | cons o rest ih =>
    have more : i < k := by
      have := congrArg List.length saved
      simp only [List.length_cons, List.length_map, List.length_range'] at this
      omega
    rw [show k - i = (k - (i + 1)) + 1 by omega, List.range'_succ, List.map_cons,
      List.cons.injEq] at saved
    obtain ⟨rfl, saved⟩ := saved
    obtain ⟨back, changed⟩ := ih (s := s.protect (firstPage + i * pageSize) _) lifted.putBack saved
      more
    exact ⟨back, (Changed.protect lifted.putBack.keepsExecute).trans changed⟩

theorem protectPage_cases {os : ProtectOs} {page new : ℕ} {s s' : Pages} {r : Option ℕ}
    (h : protectPageSameExecute os page new s = (r, s')) :
    (r = none ∧ s' = { s with tries := s.tries + 1 }) ∨
      (r = some (s.prot page) ∧ s' = Pages.protect { s with tries := s.tries + 1 } page
        (detourPageProtectAdjustExecute (s.prot page) new)) := by
  unfold protectPageSameExecute at h
  simp only at h
  split_ifs at h <;> simp only [Prod.mk.injEq] at h <;> obtain ⟨rfl, rfl⟩ := h
  · exact .inl ⟨rfl, rfl⟩
  · exact .inl ⟨rfl, rfl⟩
  · exact .inr ⟨rfl, rfl⟩

/-- The pages are all lifted, with their protections saved, or all as they were. -/
theorem changeLoop_spec {os : ProtectOs} {left : ℕ} {old : List ℕ} {s s' : Pages}
    {r : Option PageProtections}
    (lifted : Lifted prot firstPage pageReadwrite 0 old.length s.prot)
    (saved : old = (List.range' 0 old.length).map fun j => prot (firstPage + j * pageSize))
    (h : changeLoop os firstPage pageReadwrite left old s = (r, s')) :
    Changed prot s s' ∧
      (r = none ∧ s'.prot = prot ∨
        r = some ⟨firstPage, (List.range' 0 (old.length + left)).map
            fun j => prot (firstPage + j * pageSize)⟩ ∧
          Lifted prot firstPage pageReadwrite 0 (old.length + left) s'.prot) := by
  induction left generalizing old s with
  | zero =>
    simp only [changeLoop, Prod.mk.injEq] at h
    obtain ⟨rfl, rfl⟩ := h
    refine ⟨⟨rfl, rfl, fun _ mem => .inl mem⟩, .inr ⟨?_, lifted⟩⟩
    rw [Nat.add_zero, ← saved]
  | succ left ih =>
    rw [changeLoop] at h
    cases tried : protectPageSameExecute os (firstPage + old.length * pageSize) pageReadwrite s with
    | mk r₁ s₁ =>
    rw [tried] at h
    rcases protectPage_cases tried with ⟨rfl, rfl⟩ | ⟨rfl, rfl⟩
    · simp only [Prod.mk.injEq] at h
      obtain ⟨rfl, rfl⟩ := h
      obtain ⟨back, changed⟩ := restoreLoop_spec
        (s := { s with tries := s.tries + 1 }) lifted saved (Nat.zero_le _)
      exact ⟨(Changed.tried prot s _).trans changed, .inl ⟨rfl, back⟩⟩
    · have one_more := lifted.lift
      have previous : s.prot (firstPage + old.length * pageSize) =
          prot (firstPage + old.length * pageSize) :=
        lifted.outside _ fun j _ high eq => by have := page_inj eq; omega
      have saved' : old ++ [s.prot (firstPage + old.length * pageSize)] =
          (List.range' 0 (old.length + 1)).map fun j => prot (firstPage + j * pageSize) := by
        rw [List.range'_concat, List.map_append, ← saved, previous]
        simp
      have length : (old ++ [s.prot (firstPage + old.length * pageSize)]).length =
          old.length + 1 := by simp
      obtain ⟨changed, outcome⟩ := ih (by rw [length]; exact one_more) (by rw [length]; exact saved')
        h
      rw [length, Nat.add_right_comm, Nat.add_assoc] at outcome
      exact ⟨((Changed.tried prot s (s.tries + 1)).trans
        (Changed.protect one_more.keepsExecute)).trans changed, outcome⟩

/-- All pages of a range of at most eight pages are lifted, or none. -/
theorem change_spec {os : ProtectOs} {start len : ℕ} {s s' : Pages} {r : Option PageProtections}
    (short : pagesOf start len ≤ maxBatchPages)
    (h : change os start len pageReadwrite s = (r, s')) :
    Changed s.prot s s' ∧
      (r = none ∧ s'.prot = s.prot ∨
        r = some ⟨pageOf start, (List.range' 0 (pagesOf start len)).map
            fun j => s.prot (pageOf start + j * pageSize)⟩ ∧
          Lifted s.prot (pageOf start) pageReadwrite 0 (pagesOf start len) s'.prot) := by
  unfold change at h
  rw [min_eq_left short] at h
  have spec := changeLoop_spec (Lifted.refl s.prot (pageOf start) pageReadwrite 0) rfl h
  simpa only [List.length_nil, Nat.zero_add] using spec

end PageProtections

/-- The page of each byte of a range is one of the pages the range touches. -/
theorem exists_page {chunk len x : ℕ} (word : chunk + len ≤ 2 ^ 64) (inside : InRange chunk len x) :
    ∃ j < pagesOf chunk len, pageOf x = pageOf chunk + j * pageSize := by
  obtain ⟨low, high⟩ := inside
  obtain ⟨q, first⟩ := dvd_pageOf (show chunk < 2 ^ 64 by omega)
  obtain ⟨q', here⟩ := dvd_pageOf (show x < 2 ^ 64 by omega)
  obtain ⟨q'', last⟩ := dvd_pageOf (show chunk + len - 1 < 2 ^ 64 by omega)
  have := pageOf_le (show chunk < 2 ^ 64 by omega)
  have := lt_pageOf_add (show x < 2 ^ 64 by omega)
  have := pageOf_le (show x < 2 ^ 64 by omega)
  have := lt_pageOf_add (show chunk + len - 1 < 2 ^ 64 by omega)
  refine ⟨q' - q, ?_, ?_⟩
  · unfold pagesOf
    rw [first, last]
    unfold pageSize at *
    omega
  · rw [first, here]
    unfold pageSize at *
    omega

/-! ### What a write leaves -/

/-- What one batch does: it stores its bytes, or nothing; the protections are as before. -/
structure ChunkDone (start : ℕ) (src : List UInt8) (orig : Bool) (chunk len : ℕ)
    (s s' : Pages × List UInt8) (ok : Bool) : Prop where
  prot : s'.1.prot = s.1.prot
  faulted : s'.1.faulted = s.1.faulted
  history : ∀ h ∈ s'.1.history, h ∈ s.1.history ∨ KeepsExecute s.1.prot h
  mem : s'.1.mem = if ok then write s.1.mem chunk ((src.drop (chunk - start)).take len) else s.1.mem
  saved : s'.2 = if ok ∧ orig then s.2 ++ read s.1.mem chunk len else s.2

theorem writeChunk_done {os : ProtectOs} {start : ℕ} {src : List UInt8} {orig : Bool}
    {chunk len : ℕ} {s s' : Pages × List UInt8} {ok : Bool} (word : chunk + len ≤ 2 ^ 64)
    (short : pagesOf chunk len ≤ maxBatchPages)
    (h : writeChunk os start src orig chunk len s = (ok, s')) :
    ChunkDone start src orig chunk len s s' ok := by
  unfold writeChunk at h
  cases lifted : PageProtections.change os chunk len pageReadwrite s.1 with
  | mk r pages =>
  rw [lifted] at h
  obtain ⟨changed, ⟨rfl, same⟩ | ⟨rfl, all⟩⟩ := PageProtections.change_spec short lifted
  · simp only [Prod.mk.injEq] at h
    obtain ⟨rfl, rfl⟩ := h
    exact ⟨same, changed.faulted, changed.history, by simp [changed.mem], by simp⟩
  · simp only [Prod.mk.injEq] at h
    obtain ⟨rfl, rfl⟩ := h
    let bytes := (src.drop (chunk - start)).take len
    have fits : bytes.length ≤ len := List.length_take_le _ _
    -- every byte lands on a page that was lifted
    have unlocked : (List.range bytes.length).all
        (fun i => writable (pages.prot (pageOf (chunk + i)))) = true := by
      rw [List.all_eq_true]
      intro i mem
      have inside : InRange chunk len (chunk + i) := by
        have := List.mem_range.1 mem
        exact ⟨by omega, by omega⟩
      obtain ⟨j, high, eq⟩ := exists_page word inside
      rw [eq, all.inside j (Nat.zero_le j) high]
      exact writable_adjust _
    obtain ⟨back, restored⟩ := PageProtections.restoreLoop_spec (s := pages.store chunk bytes)
      (i := 0) (k := pagesOf chunk len) all rfl (Nat.zero_le _)
    refine ⟨back, ?_, ?_, ?_, ?_⟩
    · refine restored.faulted.trans ?_
      simp only [Pages.store, unlocked, Bool.not_true, Bool.or_false]
      exact changed.faulted
    · intro h mem
      exact (restored.history h mem).elim (changed.history h) .inr
    · refine restored.mem.trans ?_
      simp only [Pages.store, changed.mem, if_true, bytes]
    · simp only [changed.mem, true_and]

theorem Splits.le {end_ chunk : ℕ} {batches : List (ℕ × ℕ)} (h : Splits end_ chunk batches) :
    chunk ≤ end_ := by
  induction batches generalizing chunk with
  | nil => exact le_of_eq h
  | cons batch rest ih =>
    obtain ⟨rfl, -, -, rest⟩ := h
    have := ih rest
    omega

/-- A run over batches that lie one behind the other from `start + done` to the end: if it
succeeds, what is left of the source is stored; in any case the protections are as before. -/
theorem runBatches_done (done : ℕ) {os : ProtectOs} {start : ℕ} {src : List UInt8} {orig : Bool}
    {batches : List (ℕ × ℕ)} {s s' : Pages × List UInt8} {ok : Bool}
    (room : start + src.length ≤ 2 ^ 64) (le : done ≤ src.length)
    (splits : Splits (start + src.length) (start + done) batches)
    (h : runBatches (writeChunk os start src orig) batches s = (ok, s')) :
    s'.1.prot = s.1.prot ∧ s'.1.faulted = s.1.faulted ∧
      (∀ h ∈ s'.1.history, h ∈ s.1.history ∨ KeepsExecute s.1.prot h) ∧
      (ok = true → s'.1.mem = write s.1.mem (start + done) (src.drop done) ∧
        s'.2 = if orig then s.2 ++ read s.1.mem (start + done) (src.length - done) else s.2) := by
  induction batches generalizing done s with
  | nil =>
    simp only [runBatches, Prod.mk.injEq] at h
    obtain ⟨rfl, rfl⟩ := h
    have all : done = src.length := by
      have : start + done = start + src.length := splits
      omega
    refine ⟨rfl, rfl, fun _ mem => .inl mem, fun _ => ?_⟩
    rw [all, List.drop_length, write_nil, Nat.sub_self]
    simp [ByteMap.read]
  | cons batch rest ih =>
    obtain ⟨chunk, len⟩ := batch
    obtain ⟨rfl, positive, short, splits⟩ := splits
    have inside : done + len ≤ src.length := by
      have := splits.le
      omega
    rw [runBatches] at h
    cases wrote : writeChunk os start src orig (start + done) len s with
    | mk ok₁ s₁ =>
    rw [wrote] at h
    have one := writeChunk_done (by omega) short wrote
    cases ok₁ with
    | false =>
      simp only [Prod.mk.injEq] at h
      obtain ⟨rfl, rfl⟩ := h
      exact ⟨one.prot, one.faulted, one.history, fun no => by cases no⟩
    | true =>
      simp only at h
      obtain ⟨prot, faulted, history, stored⟩ := ih (done + len) inside (by rwa [← Nat.add_assoc]) h
      refine ⟨prot.trans one.prot, faulted.trans one.faulted, ?_, fun yes => ?_⟩
      · intro x mem
        rw [one.prot] at history
        exact (history x mem).elim (one.history x) .inr
      · obtain ⟨mem, saved⟩ := stored yes
        have piece : (src.drop (start + done - start)).take len = (src.drop done).take len := by
          rw [Nat.add_sub_cancel_left]
        have length : ((src.drop done).take len).length = len := by
          rw [List.length_take, List.length_drop]
          omega
        have cut : src.drop done = (src.drop done).take len ++ src.drop (done + len) := by
          rw [← List.drop_drop, List.take_append_drop]
        constructor
        · conv_rhs => rw [cut, write_append, length]
          rw [mem, one.mem, if_pos rfl, piece, Nat.add_assoc]
        · rw [saved, one.saved, one.mem, if_pos rfl, piece, ← Nat.add_assoc]
          cases orig with
          | false => simp
          | true =>
            have apart : Apart (start + done) ((src.drop done).take len).length
                (start + done + len) (src.length - (done + len)) := .inl (by omega)
            simp only [and_self, if_true]
            rw [read_write_apart apart, List.append_assoc, ← read_append]
            congr 2
            omega

/-- A range within one batch is not split. -/
theorem pageBatches_single {start end_ : ℕ} (room : end_ ≤ usizeMax) (inside : start < end_)
    (short : end_ ≤ pageOf start + maxBatchPages * pageSize) :
    pageBatches end_ room start = [(start, end_ - start)] := by
  have stop : batchEnd end_ start = end_ := by
    unfold batchEnd saturatingAdd
    omega
  rw [pageBatches, if_pos inside, stop, pageBatches, if_neg (lt_irrefl end_)]

theorem writePages_eq {os : ProtectOs} {start : ℕ} {src : List UInt8} {orig : Bool} {s : Pages}
    (room : start + src.length ≤ usizeMax) :
    writePages os start src orig s = runBatches (writeChunk os start src orig)
      (pageBatches (start + src.length) room start) (s, []) := by
  rw [writePages, dif_pos room, forEachPageBatch_eq]

/-- A write changes no protection, never takes the execute permission from a page and never meets a
page that is not writable; within one batch it is whole or nothing. -/
theorem writePages_done {os : ProtectOs} {start : ℕ} {src : List UInt8} {orig ok : Bool}
    {s s' : Pages} {saved : List UInt8} (h : writePages os start src orig s = (ok, s', saved)) :
    s'.prot = s.prot ∧ s'.faulted = s.faulted ∧
      (∀ h ∈ s'.history, h ∈ s.history ∨ KeepsExecute s.prot h) ∧
      (ok = true → s'.mem = write s.mem start src ∧
        saved = if orig then read s.mem start src.length else []) ∧
      (ok = false → start + src.length ≤ pageOf start + maxBatchPages * pageSize →
        s'.mem = s.mem ∧ saved = []) := by
  by_cases room : start + src.length ≤ usizeMax
  · rw [writePages_eq room] at h
    have space : start + src.length ≤ 2 ^ 64 := by
      unfold usizeMax at room
      omega
    have splits := pageBatches_splits _ room start (Nat.le_add_right _ _)
    obtain ⟨prot, faulted, history, stored⟩ := runBatches_done 0 space (Nat.zero_le _)
      splits h
    refine ⟨prot, faulted, history, fun yes => ?_, fun no short => ?_⟩
    · simpa using stored yes
    · by_cases empty : src.length = 0
      · rw [pageBatches, if_neg (by omega), runBatches] at h
        simp only [Prod.mk.injEq] at h
        rw [← h.1] at no
        cases no
      · rw [pageBatches_single room (by omega) short, Nat.add_sub_cancel_left] at h
        simp only [runBatches] at h
        have fits : pagesOf start src.length ≤ maxBatchPages :=
          pagesOf_le space (Nat.pos_of_ne_zero empty) short
        cases wrote : writeChunk os start src orig start src.length (s, []) with
        | mk ok₁ s₁ =>
        rw [wrote] at h
        have one := writeChunk_done space fits wrote
        cases ok₁ with
        | true =>
          simp only [Prod.mk.injEq] at h
          rw [← h.1] at no
          cases no
        | false =>
          simp only [Prod.mk.injEq] at h
          obtain ⟨-, rfl⟩ := h
          exact ⟨by simpa using one.mem, by simpa using one.saved⟩
  · rw [writePages, dif_neg room] at h
    simp only [Prod.mk.injEq] at h
    obtain ⟨rfl, rfl, rfl⟩ := h
    refine ⟨rfl, rfl, fun _ mem => .inl mem, ?_, fun _ _ => ⟨rfl, rfl⟩⟩
    intro no
    cases no

/-- `write_pages` for every map of protections and every pattern of failures.  The batches split the
range exactly; a write that succeeds stores the source, saves the previous bytes and changes no
other byte; the protections are in any case as before, no executable page loses that permission at
any time, and no store meets a page that is not writable; and a write within one batch that fails
changes nothing. -/
theorem writePages_spec (os : ProtectOs) (start : ℕ) (src : List UInt8) (orig : Bool) (s : Pages) :
    (∀ (room : start + src.length ≤ usizeMax),
      Splits (start + src.length) start (pageBatches (start + src.length) room start) ∧
      ∀ (σ : Type) (f : ℕ → ℕ → σ → Bool × σ) (t : σ),
        forEachPageBatch f (start + src.length) room start t =
          runBatches f (pageBatches (start + src.length) room start) t) ∧
    ∀ ok s' saved, writePages os start src orig s = (ok, s', saved) →
      s'.prot = s.prot ∧ s'.faulted = s.faulted ∧
      (∀ h ∈ s'.history, h ∈ s.history ∨ KeepsExecute s.prot h) ∧
      (ok = true → s'.mem = write s.mem start src ∧
        saved = if orig then read s.mem start src.length else []) ∧
      (ok = false → start + src.length ≤ pageOf start + maxBatchPages * pageSize →
        s'.mem = s.mem ∧ saved = []) := by
  exact ⟨fun room => ⟨pageBatches_splits _ room start (Nat.le_add_right _ _),
    fun σ f t => forEachPageBatch_eq f _ room start t⟩, fun _ _ _ h => writePages_done h⟩

/-- A page of code that may be read and one that may be written as well. -/
def twoPages : Pages where
  mem := fun _ => 0
  prot := fun page => if page = 0x1000 then pageExecuteRead else pageExecuteReadwrite
  tries := 0
  history := []
  faulted := false

/-- A write across the border of two pages gives each its own protection back. -/
theorem twoPages_straddled :
    ∃ s', writePages ⟨fun _ => false, fun _ => false⟩ 0x1FFE [0xC3, 0xCC, 0x90, 0x90] true
        twoPages = (true, s', [0, 0, 0, 0]) ∧
      s'.mem = write (fun _ => 0) 0x1FFE [0xC3, 0xCC, 0x90, 0x90] ∧ s'.prot = twoPages.prot := by
  have wrote : (writePages ⟨fun _ => false, fun _ => false⟩ 0x1FFE [0xC3, 0xCC, 0x90, 0x90] true
      twoPages).1 = true := by
    rw [writePages_eq (by decide), pageBatches_single _ (by decide) (by decide)]
    rfl
  obtain ⟨prot, -, -, stored, -⟩ := (writePages_spec ⟨fun _ => false, fun _ => false⟩ 0x1FFE
    [0xC3, 0xCC, 0x90, 0x90] true twoPages).2 _ _ _ rfl
  obtain ⟨mem, saved⟩ := stored wrote
  exact ⟨_, Prod.ext wrote (Prod.ext rfl saved), mem, prot⟩

end NeoHook
