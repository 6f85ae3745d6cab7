import NeoHook.Attach

/-!
# Redirecting suspended threads

`redirect_rip_relative_threads` of `transaction.rs`: an instruction pointer or a return address
inside the bytes a hook is about to overwrite is moved into the hook's trampoline, and every change
is logged so that `rollback` can take it back.
-/

namespace NeoHook

open ByteMap

/-- The instruction pointers, stack pointers and stack words of the suspended threads. -/
structure Threads where
  ip : ℕ → ℕ
  sp : ℕ → ℕ
  stack : ℕ → ℕ

/-- The threads with the logs of the commit, oldest entry first. -/
structure Redirects where
  threads : Threads
  redirectedThreads : List (ℕ × ℕ)
  redirectedStacks : List (ℕ × ℕ × ℕ)

/-- What the OS answers about the suspended threads during a commit. -/
structure ThreadAnswers where
  /-- The tracked threads that could be suspended. -/
  threads : List ℕ
  query : ℕ → Option Mbi
  /-- `GetThreadContext` and `SetThreadContext` succeed, by queue index and thread. -/
  getContext : ℕ → ℕ → Bool
  setContext : ℕ → ℕ → Bool
  /-- Capacities of the two logs. -/
  threadCapacity : ℕ
  stackCapacity : ℕ

/-! ### Which addresses are redirected, and where to -/

/-- `map_redirect_address_exact`. -/
def mapRedirectAddressExact (d : InlineData) (oldAddr : ℕ) : Except DetourError (Option ℕ) :=
  if ¬ InRange d.target d.stolenLen oldAddr then .ok none
  else match d.targetKind with
    | .managedGateway => .ok (some (d.redirectBase + (oldAddr - d.target)))
    | .normal =>
      match d.redirectMap with
      | none => .error .relocationFailed
      | some map =>
        if 2 ^ 32 ≤ oldAddr - d.target then .error .relocationFailed
        else match map.oldInstructionOffsets.findIdx? (· = oldAddr - d.target) with
          | none => .ok none
          | some index =>
            let newRel := map.newInstructionOffsets.getD index 0
            if newRel = 2 ^ 32 - 1 then .error .relocationFailed
            else .ok (some (d.redirectBase + newRel))

def maxCallLen : ℕ := 7

/-- The byte `k` before the value, from the saved bytes or from the page of the target. -/
def callByte (mem : ℕ → UInt8) (d : InlineData) (value k : ℕ) : Option UInt8 :=
  if value < k then none
  else
    let addr := value - k
    if d.target ≤ addr then d.origBytes[addr - d.target]?
    else if d.target / pageSize * pageSize ≤ addr then some (mem addr)
    else none

/-- The bytes before the value, nearest first, up to the first one that cannot be read. -/
def callWindow (mem : ℕ → UInt8) (d : InlineData) (value : ℕ) : ℕ → ℕ → List UInt8
  | 0, _ => []
  | n + 1, k =>
    match callByte mem d value k with
    | none => []
    | some b => b :: callWindow mem d value n (k + 1)

/-- The encoded length of `call r/m` with the given ModRM and SIB bytes, for an opcode `len` bytes
before the return address. -/
def callLen (modrm sib : UInt8) (len : ℕ) : Option ℕ :=
  let rm := modrm &&& 7
  match (modrm >>> 6).toNat with
  | 3 => some 2
  | 0 =>
    if rm = 5 then some 6
    else if rm = 4 then
      if len < 3 then none else if sib &&& 7 = 5 then some 7 else some 3
    else some 2
  | 1 => if rm = 4 then some 4 else some 3
  | _ => if rm = 4 then some 7 else some 6

/-- `is_plausible_return_address`: a call ends at the value. -/
def isPlausibleReturnAddress (mem : ℕ → UInt8) (d : InlineData) (value : ℕ) : Bool :=
  if value ≤ d.target ∨ d.target + d.stolenLen ≤ value then false
  else
    let window := callWindow mem d value maxCallLen 1
    let byte := fun k => window.getD (k - 1) 0
    (5 ≤ window.length && byte 5 = 0xE8) ||
      (List.range (window.length + 1)).any fun len =>
        2 ≤ len && byte len = 0xFF && (byte (len - 1) >>> 3) &&& 7 = 2 &&
          callLen (byte (len - 1)) (byte (len - 2)) len = some len

/-! ### One thread -/

section

variable (mem : ℕ → UInt8) (os : ThreadAnswers) (d : InlineData)

/-- One stack slot: the error that ends the scan, if any. -/
def redirectSlot (thread slot : ℕ) (r : Redirects) : Option DetourError × Redirects :=
  let value := r.threads.stack slot
  if isPlausibleReturnAddress mem d value = false then (none, r)
  else match mapRedirectAddressExact d value with
    | .error e => (some e, r)
    | .ok none => (none, r)
    | .ok (some newReturnAddr) =>
      if r.redirectedStacks.length = os.stackCapacity then (some .relocationFailed, r)
      else
        (none, { r with
          threads := { r.threads with
            stack := Function.update r.threads.stack slot newReturnAddr }
          redirectedStacks := r.redirectedStacks ++ [(thread, slot, value)] })

/-- The slots of one run of pages: the error, the bytes scanned so far, and the threads. -/
def redirectSlots (thread : ℕ) : ℕ → ℕ → ℕ → Redirects → Option DetourError × ℕ × Redirects
  | 0, _, scanned, r => (none, scanned, r)
  | n + 1, slot, scanned, r =>
    if maxStackScanBytes < scanned + wordSize then
      (some .relocationFailed, scanned + wordSize, r)
    else match redirectSlot mem os d thread slot r with
      | (some e, r) => (some e, scanned + wordSize, r)
      | (none, r) => redirectSlots thread n (slot + wordSize) (scanned + wordSize) r

/-- The loop over the runs of pages of the stack. -/
def redirectStack (thread stackAllocation region scanned : ℕ) (r : Redirects) :
    Option DetourError × Redirects :=
  match os.query region with
  | none => (none, r)
  | some i =>
    if i.allocationBase ≠ stackAllocation then (none, r)
    else if _ : i.regionEnd ≤ region then (none, r)
    else if i.readable then
      let slot := nextMultipleOf region wordSize
      match redirectSlots mem os d thread ((i.regionEnd - slot) / wordSize) slot scanned r with
      | (some e, _, r) => (some e, r)
      | (none, scanned, r) => redirectStack thread stackAllocation i.regionEnd scanned r
    else redirectStack thread stackAllocation i.regionEnd scanned r
termination_by usizeMax - region
decreasing_by
  all_goals
    have : i.regionEnd ≤ usizeMax := min_le_right _ _
    omega

/-- The instruction pointer of one thread. -/
def redirectIp (index thread : ℕ) (r : Redirects) : Option DetourError × Redirects :=
  let originalRip := r.threads.ip thread
  if ¬ InRange d.target d.stolenLen originalRip then (none, r)
  else match mapRedirectAddressExact d originalRip with
    | .error e => (some e, r)
    | .ok none => (some .relocationFailed, r)
    | .ok (some redirectedIp) =>
      if r.redirectedThreads.length = os.threadCapacity then (some .relocationFailed, r)
      else
        let r := { r with redirectedThreads := r.redirectedThreads ++ [(thread, originalRip)] }
        if os.setContext index thread then
          (none, { r with
            threads := { r.threads with ip := Function.update r.threads.ip thread redirectedIp } })
        else (some .relocationFailed, r)

/-- `redirect_rip_relative_threads`. -/
def redirectRipRelativeThreads (index : ℕ) (r : Redirects) (thread : ℕ) :
    Option DetourError × Redirects :=
  if os.getContext index thread = false then (none, r)
  else match redirectIp os d index thread r with
    | (some e, r) => (some e, r)
    | (none, r) =>
      match os.query (r.threads.sp thread) with
      | none => (none, r)
      | some i => redirectStack mem os d thread i.allocationBase (r.threads.sp thread) 0 r

/-- The loop of `install_inline` over the suspended threads. -/
def redirectAll (index : ℕ) : List ℕ → Redirects → Option DetourError × Redirects
  | [], r => (none, r)
  | thread :: rest, r =>
    match redirectRipRelativeThreads mem os d index r thread with
    | (some e, r) => (some e, r)
    | (none, r) => redirectAll index rest r

end

/-! ### Taking the changes back -/

/-- One entry of the first loop of `rollback`; `ok` is whether the context can be set. -/
def restoreIp (t : Threads) (entry : ℕ × ℕ) (ok : Bool) : Threads :=
  if ok then { t with ip := Function.update t.ip entry.1 entry.2 } else t

/-- The first loop of `rollback`, oldest entry first. -/
def restoreIps (t : Threads) (log : List (ℕ × ℕ)) (ok : ℕ → Bool) : Threads :=
  log.foldl (fun t entry => restoreIp t entry (ok entry.1)) t

/-- The second loop of `rollback`, oldest entry first. -/
def restoreStacks (t : Threads) (log : List (ℕ × ℕ × ℕ)) : Threads :=
  log.foldl (fun t entry =>
    { t with stack := Function.update t.stack entry.2.1 entry.2.2 }) t

end NeoHook
