import NeoHook.Redirect

/-!
# Committing a transaction

`TransactionCore::commit`: the checks and allocations before any thread is suspended, the loop that
installs the queued hooks, the rollback when a step of it fails, and the publication of the new
gateways and patches when none does.  Each outcome the OS decides is an argument, so that a commit
can fail at every position.
-/

namespace NeoHook

open ByteMap

inductive Hook where
  | inline (h : InlineHook)
  | iat (h : IatHook)
  | eat (h : EatHook)
  | vtable (h : VTableHook)
  | vtableInstance (h : VTableInstanceHook)
  deriving DecidableEq

/-- What a commit reads and writes, threads apart. -/
structure Process where
  code : Code
  tables : Tables
  /-- The installed hooks and where the program keeps them. -/
  hooks : List (Place × Hook)

/-! ### Operations on a hook of any kind -/

/-- `retire_stub`: a leaked export stub jumps to the original export. -/
def Code.retireStub (c : Code) (stub : Option Trampoline) (originalPtr : ℕ) (ok : Bool) : Code :=
  match stub with
  | none => c
  | some t => if ok then c.store (t.ptr + 6) (leBytes 8 originalPtr) none else c

namespace Hook

variable (M : Modules)

/-- The inline hook. -/
def inlineHook : Hook → Option InlineHook
  | .inline h => some h
  | _ => none

/-- The stub of an export hook. -/
def exportStub : Hook → Option Trampoline
  | .eat h => h.stub
  | _ => none

def isEnabled : Hook → Bool
  | .inline h => h.enabled
  | .iat h => h.enabled
  | .eat h => h.enabled
  | .vtable h => h.enabled
  | .vtableInstance h => h.enabled

def enable (c : Code) (t : Tables) (ok : Bool) : Hook → Except DetourError (Code × Tables × Hook)
  | .inline h => (h.enable c ok).map fun r => (r.1, t, .inline r.2)
  | .iat h => (h.enable M t ok).map fun r => (c, r.1, .iat r.2)
  | .eat h => (h.enable t ok).map fun r => (c, r.1, .eat r.2)
  | .vtable h => (h.enable t ok).map fun r => (c, r.1, .vtable r.2)
  | .vtableInstance h => (h.enable t).map fun r => (c, r.1, .vtableInstance r.2)

def disable (c : Code) (t : Tables) (ok : Bool) : Hook → Except DetourError (Code × Tables × Hook)
  | .inline h => (h.disable c ok).map fun r => (r.1, t, .inline r.2)
  | .iat h => (h.disable M t ok).map fun r => (c, r.1, .iat r.2)
  | .eat h => (h.disable t ok).map fun r => (c, r.1, .eat r.2)
  | .vtable h => (h.disable t ok).map fun r => (c, r.1, .vtable r.2)
  | .vtableInstance h => (h.disable t).map fun r => (c, r.1, .vtableInstance r.2)

/-- `detach_finalize`; `retargetOk` is whether a leaked export stub can be written. -/
def detachFinalize (c : Code) (t : Tables) (ok retargetOk : Bool) : Hook → Code × Tables × Hook
  | .inline h => let r := h.detachFinalize c ok; (r.1, t, .inline r.2)
  | .iat h => let r := h.detachFinalize M t ok; (c, r.1, .iat r.2)
  | .eat h =>
    let r := h.detachFinalize t ok
    (c.retireStub r.2.2 h.originalPtr retargetOk, r.1, .eat r.2.1)
  | .vtable h => let r := h.detachFinalize t ok; (c, r.1, .vtable r.2)
  | .vtableInstance h => let r := h.detachFinalize t ok; (c, r.1, .vtableInstance r.2)

/-- `Drop`. -/
def drop (c : Code) (t : Tables) (ok retargetOk : Bool) : Hook → Code × Tables
  | .inline h => (h.drop c ok, t)
  | .iat h => (c, h.drop M t ok)
  | .eat h => let r := h.drop t ok; (c.retireStub r.2 h.originalPtr retargetOk, r.1)
  | .vtable h => (c, h.drop t ok)
  | .vtableInstance h => (c, h.drop t ok)

/-- `unhook`, which consumes the hook. -/
def unhook (c : Code) (t : Tables) (ok dropOk retargetOk : Bool) : Hook → Code × Tables
  | .inline h => ((h.unhook c ok dropOk).2, t)
  | .iat h => (c, (h.unhook M t ok dropOk).2)
  | .eat h =>
    let r := (h.unhook t ok dropOk).2
    (c.retireStub r.2 h.originalPtr retargetOk, r.1)
  | .vtable h => (c, (h.unhook t ok dropOk).2)
  | .vtableInstance h => (c, (h.unhook t ok dropOk).2)

end Hook

namespace Process

/-- The hook at a place. -/
def hookAt (p : Process) (place : Place) : Option Hook :=
  (p.hooks.find? fun e => e.1 = place).map (·.2)

/-- Takes the hook out of its place. -/
def take (p : Process) (place : Place) : Process :=
  { p with hooks := p.hooks.eraseP fun e => e.1 = place }

/-- The hook at the place takes a new value. -/
def put (p : Process) (place : Place) (h : Hook) : Process :=
  { p with hooks := (place, h) :: p.hooks.eraseP fun e => e.1 = place }

end Process

/-- Answers of the OS during a commit; those of the loops are by position in the list the loop
runs over. -/
structure CommitOs extends ThreadAnswers where
  /-- Addresses for clone storage and export stubs, by queue index. -/
  cloneAt : ℕ → Option ℕ
  stubAt : ℕ → Option ℕ
  /-- The write of a queue entry succeeds. -/
  patchOk : ℕ → Bool
  /-- The write that enables a detached hook again succeeds, by position among the detaches. -/
  reenableOk : ℕ → Bool
  /-- The context of a thread can be set back. -/
  restoreOk : ℕ → Bool
  /-- The writes that undo an installed hook succeed: in `rollback`, and when it is dropped. -/
  undoOk : ℕ → Bool
  dropOk : ℕ → Bool
  /-- The writes that finish a detach succeed. -/
  finalizeOk : ℕ → Bool
  retargetOk : ℕ → Bool

/-- Resources a commit allocates before it suspends any thread. -/
inductive Reserved where
  | nothing
  | patch (bytes : List UInt8)
  | table (storage : Option (ℕ × ℕ))
  | eat (prepared : PreparedEat)
  deriving DecidableEq, Repr

section

variable (M : Modules) (foreign : List Region)

/-! ### Before the suspend window -/

/-- `prepare_export`, with the address for a jump stub. -/
def prepareExport (c : Code) (t : Tables) (module : ℕ) (func : String) (detour : ℕ)
    (at_ : Option ℕ) : Except DetourError PreparedEat × Code :=
  if module = 0 ∨ detour = 0 then (.error (.eat .invalidParameter), c)
  else match EatHook.findExport M t module func with
    | .error e => (.error (.eat e), c)
    | .ok slot =>
      if module ≤ detour ∧ detour - module < 2 ^ 32 then (.ok ⟨slot, detour - module, none⟩, c)
      else match c.allocNearbyTrampoline foreign at_ managedGatewayLen with
        | none => (.error (.eat .detourUnreachable), c)
        | some (c, stub) =>
          (.ok ⟨slot, (stub.ptr - module) % 2 ^ 32, some stub⟩,
            c.store stub.ptr (managedGatewayStub detour) none)

/-- What one queue entry needs; `earlier` are the entries before it. -/
def reserve (earlier : List PendingHook) (index : ℕ) (hook : PendingHook) (os : CommitOs)
    (p : Process) : Except (HookKind × DetourError) Reserved × Process :=
  match hook with
  | .inline d =>
    if overlapsPending earlier d.target d.stolenLen ∨
        p.code.overlapsLivePatch d.target d.stolenLen then
      (.error (.inline, .invalidParameter), p)
    else match inlinePatchBytes d.target d.detour d.jumpType d.stolenLen with
      | .error e => (.error (.inline, e), p)
      | .ok bytes => (.ok (.patch bytes), p)
  | .vtableInstance _ len _ _ =>
    match p.tables.newClonedVtable M len (os.cloneAt index) with
    | .error e => (.error (.vtableInstance, .vtable e), p)
    | .ok (a, t) => (.ok (.table (some (a, len))), { p with tables := t })
  | .eat module func detour _ =>
    match prepareExport M foreign p.code p.tables module func detour (os.stubAt index) with
    | (.error e, c) => (.error (.eat, e), { p with code := c })
    | (.ok prepared, c) => (.ok (.eat prepared), { p with code := c })
  | _ => (.ok .nothing, p)

/-- Releases what was reserved and not taken over by a hook. -/
def Reserved.drop (p : Process) : Reserved → Process
  | .table (some (clone, len)) => { p with tables := p.tables.dealloc clone len }
  | .eat prepared => { p with code := p.code.dropGateway prepared.stub }
  | _ => p

def dropReserved (p : Process) (reserved : List Reserved) : Process := reserved.foldl Reserved.drop p

def dropPending (p : Process) (pending : List PendingHook) : Process :=
  { p with code := pending.foldl PendingHook.drop p.code }

/-- The loop that reserves resources, with the entries already handled. -/
def reserveAll (os : CommitOs) :
    List PendingHook → List Reserved → List PendingHook → Process →
      Except DetourError (List Reserved) × Process
  | _, reserved, [], p => (.ok reserved, p)
  | earlier, reserved, hook :: rest, p =>
    match reserve M foreign earlier earlier.length hook os p with
    | (.error (kind, source), p) =>
      (.error (.commitFailed earlier.length kind source), dropReserved p reserved)
    | (.ok slot, p) => reserveAll os (earlier ++ [hook]) (reserved ++ [slot]) rest p

/-- The first queued hook whose gateway has lost its owner since `attach`. -/
def orphaned (c : Code) (pending : List PendingHook) : Option ℕ :=
  pending.findIdx? fun hook => match hook with
    | .inline d => d.targetKind = .managedGateway && !c.isManagedGateway d.target
    | _ => false

/-! ### The suspend window -/

/-- The state of the install loop. -/
structure Window where
  process : Process
  redirects : Redirects
  installed : List Hook
  /-- Detached hooks and whether they were enabled (`AppliedDetach`). -/
  detached : List (Place × Bool)
  /-- What is left of the resources of the entries already handled. -/
  spare : List Reserved

/-- The hook a commit makes of a queue entry. -/
def InlineData.install (d : InlineData) (c : Code) (patch : List UInt8) : InlineHook :=
  { target := d.target
    trampoline := d.trampoline
    stolenLen := d.stolenLen
    origBytes := d.origBytes
    jumpType := d.jumpType
    active := true
    targetKind := d.targetKind
    patchBytes := patch
    enabled := true
    published := false
    detour := d.detour
    found := read c.mem d.target d.stolenLen }

/-- `install_inline`. -/
def installInline (index : ℕ) (d : InlineData) (reserved : Reserved) (os : CommitOs) (w : Window) :
    Except DetourError Unit × Window :=
  match redirectAll w.process.code.mem os.toThreadAnswers d index os.threads w.redirects with
  | (some e, r) => (.error e, { w with redirects := r })
  | (none, r) =>
    let w := { w with redirects := r }
    match reserved with
    | .patch patch =>
      if w.process.code.armedInRange d.target d.stolenLen then (.error .invalidParameter, w)
      else if patch.length ≠ d.stolenLen then (.error .relocationFailed, w)
      else
        let hook := d.install w.process.code patch
        match w.process.code.writeCodeBytes d.target patch (some (hook.mark w.process.code))
            (os.patchOk index) with
        | none => (.error .relocationFailed, w)
        | some c =>
          (.ok (), { w with
            process := { w.process with code := c }
            installed := w.installed ++ [.inline hook] })
    | _ => (.error .invalidParameter, w)

/-- `prepare_detach`: whether the hook was enabled. -/
def prepareDetach (p : Process) (target : Place) (ok : Bool) : Except DetourError (Bool × Process) :=
  match p.hookAt target with
  | none => .error .invalidParameter
  | some hook =>
    if hook.isEnabled then
      match hook.disable M p.code p.tables ok with
      | .error e => .error e
      | .ok (c, t, hook) => .ok (true, { p.put target hook with code := c, tables := t })
    else .ok (false, p)

/-- A hook of the install loop is in place. -/
def Window.push (w : Window) (t : Tables) (h : Hook) (spare : List Reserved) : Window :=
  { w with
    process := { w.process with tables := t }
    installed := w.installed ++ [h]
    spare := w.spare ++ spare }

/-- The window after a table write that failed. -/
def Window.setTables (w : Window) (t : Tables) : Window :=
  { w with process := { w.process with tables := t } }

/-- One step of the install loop: an error leaves the entry and its resources with the caller. -/
def installStep (index : ℕ) (hook : PendingHook) (reserved : Reserved) (os : CommitOs) (w : Window) :
    Except (HookKind × DetourError) Unit × Window :=
  match hook with
  | .inline d =>
    match installInline index d reserved os w with
    | (.error e, w) => (.error (.inline, e), w)
    | (.ok (), w) => (.ok (), w)
  | .iat module dll func detour slot =>
    match IatHook.install M w.process.tables module dll func detour slot (os.patchOk index) with
    | (.error e, t) => (.error (.iat, e), w.setTables t)
    | (.ok h, t) => (.ok (), w.push t (.iat h) [])
  | .eat module func _ _ =>
    match reserved with
    | .eat prepared =>
      match EatHook.install w.process.tables module func prepared (os.patchOk index) with
      | (.error e, t) => (.error (.eat, e), w.setTables t)
      | (.ok h, t) => (.ok (), w.push t (.eat h) [])
    | _ => (.error (.eat, .invalidParameter), w)
  | .vtable vtable i detour =>
    match VTableHook.install w.process.tables vtable i detour (os.patchOk index) with
    | (.error e, t) => (.error (.vtable, .vtable e), w.setTables t)
    | (.ok h, t) => (.ok (), w.push t (.vtable h) [])
  | .vtableInstance object _ i detour =>
    match reserved with
    | .table storage =>
      match VTableInstanceHook.installInto w.process.tables object i detour storage
          (os.patchOk index) with
      | (.error e, t, _) => (.error (.vtableInstance, .vtable e), w.setTables t)
      | (.ok h, t, rest) => (.ok (), w.push t (.vtableInstance h) [.table rest])
    | _ => (.error (.vtableInstance, .invalidParameter), w)
  | .detach target =>
    match prepareDetach M w.process target (os.patchOk index) with
    | .error e => (.error (.detach, e), w)
    | .ok (wasEnabled, p) =>
      (.ok (), { w with process := p, detached := w.detached ++ [(target, wasEnabled)] })

/-- The install loop: on failure the error, the window, and the entries from the failing one on. -/
def installAll (os : CommitOs) :
    ℕ → List (PendingHook × Reserved) → Window →
      Option (DetourError × List (PendingHook × Reserved)) × Window
  | _, [], w => (none, w)
  | index, (hook, reserved) :: rest, w =>
    match installStep M index hook reserved os w with
    | (.error (kind, source), w) =>
      (some (.commitFailed index kind source, (hook, reserved) :: rest), w)
    | (.ok (), w) => installAll os (index + 1) rest w

/-! ### Rolling back -/

/-- One step of `rollback_detaches`. -/
def rollbackDetach (p : Process) (target : Place) (wasEnabled ok : Bool) : Process :=
  match p.hookAt target with
  | none => p
  | some hook =>
    if wasEnabled then
      match hook.enable M p.code p.tables ok with
      | .error _ => p
      | .ok (c, t, hook) => { p.put target hook with code := c, tables := t }
    else p

/-- `rollback_detaches`, newest first. -/
def rollbackDetaches (os : CommitOs) (p : Process) (detached : List (Place × Bool)) : Process :=
  detached.zipIdx.foldr (fun d p => rollbackDetach M p d.1.1 d.1.2 (os.reenableOk d.2)) p

/-- The last loop of `rollback`, newest hook first: the process and the hooks as they are now. -/
def undoInstalled (os : CommitOs) (p : Process) (installed : List (Hook × ℕ)) :
    Process × List (Hook × ℕ) :=
  installed.foldr (fun h (p, done) =>
    match h.1.disable M p.code p.tables (os.undoOk h.2) with
    | .error _ => (p, h :: done)
    | .ok (c, t, hook) => ({ p with code := c, tables := t }, (hook, h.2) :: done)) (p, [])

/-- The failed commit drops the hooks it installed. -/
def dropInstalled (os : CommitOs) (p : Process) (installed : List (Hook × ℕ)) : Process :=
  installed.foldl (fun p h =>
    let r := h.1.drop M p.code p.tables (os.dropOk h.2) (os.retargetOk h.2)
    { p with code := r.1, tables := r.2 }) p

/-- The failure path of `commit`: everything done in the window is taken back, then what the commit
built is dismantled. -/
def rollback (os : CommitOs) (w : Window) (rest : List (PendingHook × Reserved)) :
    Process × Threads :=
  let p := rollbackDetaches M os w.process w.detached
  let threads := restoreStacks
    (restoreIps w.redirects.threads w.redirects.redirectedThreads os.restoreOk)
    w.redirects.redirectedStacks
  let (p, installed) := undoInstalled M os p w.installed.zipIdx
  let p := dropInstalled M os p installed
  let p := dropPending p (rest.map (·.1))
  (dropReserved p (w.spare ++ rest.map (·.2)), threads)

/-! ### Success -/

/-- What `commit` publishes for an inline hook. -/
def publishInline (c : Code) (h : InlineHook) : Code × InlineHook :=
  let c := match h.targetKind with
    | .managedGateway => (c.unregisterManagedGateway h.target).addGatewayDependent h.target
    | .normal => c
  ((c.registerManagedGateway h.trampoline.ptr).registerLivePatch h.target h.stolenLen,
    { h with published := true })

def publish (c : Code) : Hook → Code × Hook
  | .inline h => let r := publishInline c h; (r.1, .inline r.2)
  | h => (c, h)

def publishAll (c : Code) : List Hook → Code × List Hook
  | [] => (c, [])
  | h :: rest =>
    let r := publish c h
    let s := publishAll r.1 rest
    (s.1, r.2 :: s.2)

/-- One step of `finalize_detaches`: the hook of a handle is taken out of its slot and dropped. -/
def finalizeDetach (os : CommitOs) (p : Process) (index : ℕ) (target : Place) : Process :=
  match p.hookAt target with
  | none => p
  | some hook =>
    let r := hook.detachFinalize M p.code p.tables (os.finalizeOk index) (os.retargetOk index)
    match target with
    | .hookPtr _ => { p.put target r.2.2 with code := r.1, tables := r.2.1 }
    | .handleIndex _ _ =>
      let s := r.2.2.drop M r.1 r.2.1 (os.finalizeOk index) (os.retargetOk index)
      { p.take target with code := s.1, tables := s.2 }

def finalizeDetaches (os : CommitOs) (p : Process) (detached : List (Place × Bool)) : Process :=
  detached.zipIdx.foldl (fun p d => finalizeDetach M os p d.2 d.1.1) p

/-! ### The commit -/

/-- `commit` of a pending transaction: the installed hooks, the process and the threads. -/
def commit (pending : List PendingHook) (os : CommitOs) (p : Process) (threads : Threads) :
    Except DetourError (List Hook) × Process × Threads :=
  match reserveAll M foreign os [] [] pending p with
  | (.error e, p) => (.error e, dropPending p pending, threads)
  | (.ok reserved, p) =>
    match orphaned p.code pending with
    | some index =>
      (.error (.commitFailed index .inline .invalidParameter),
        dropPending (dropReserved p reserved) pending, threads)
    | none =>
      match installAll M os 0 (pending.zip reserved) ⟨p, ⟨threads, [], []⟩, [], [], []⟩ with
      | (some (e, rest), w) =>
        let r := rollback M os w rest
        (.error e, r.1, r.2)
      | (none, w) =>
        let r := publishAll w.process.code w.installed
        let p := finalizeDetaches M os { w.process with code := r.1 } w.detached
        (.ok r.2, dropReserved p w.spare, w.redirects.threads)

/-- The window that the commit rolls back, if its install loop stops at an entry. -/
def failedWindow (pending : List PendingHook) (os : CommitOs) (p : Process) (threads : Threads) :
    Option Window :=
  match reserveAll M foreign os [] [] pending p with
  | (.error _, _) => none
  | (.ok reserved, p) =>
    if (orphaned p.code pending).isSome then none
    else match installAll M os 0 (pending.zip reserved) ⟨p, ⟨threads, [], []⟩, [], [], []⟩ with
      | (some _, w) => some w
      | (none, _) => none

end

end NeoHook
