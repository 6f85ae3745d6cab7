import NeoHook.Int3

/-!
# Inline hooks

`InlineData`, the queued form of an inline hook, and `InlineHook`, the installed one, of
`transaction.rs`, with every operation on an installed hook.  `ok` is whether the code write of the
operation succeeds.
-/

namespace NeoHook

open ByteMap

inductive TargetKind where
  | normal | managedGateway
  deriving DecidableEq, Repr

structure RedirectMap where
  oldInstructionOffsets : List ℕ
  newInstructionOffsets : List ℕ
  deriving DecidableEq, Repr

/-- A queued inline hook. -/
structure InlineData where
  target : ℕ
  detour : ℕ
  trampoline : Trampoline
  stolenLen : ℕ
  jumpType : JumpType
  origBytes : List UInt8
  redirectBase : ℕ
  targetKind : TargetKind
  redirectMap : Option RedirectMap
  deriving DecidableEq, Repr

/-- An installed inline hook.  The last two fields are history that the program does not keep. -/
structure InlineHook where
  target : ℕ
  trampoline : Trampoline
  stolenLen : ℕ
  origBytes : List UInt8
  jumpType : JumpType
  active : Bool
  targetKind : TargetKind
  patchBytes : List UInt8
  enabled : Bool
  published : Bool
  /-- The address the patch jumps to. -/
  detour : ℕ
  /-- The bytes that stood at the target when the commit patched it. -/
  found : List UInt8
  deriving DecidableEq, Repr

/-- The transaction is given up or the commit failed: the stub of the queued hook is retired. -/
def InlineData.drop (c : Code) (d : InlineData) : Code := c.dropTrampoline d.trampoline

namespace InlineHook

/-- The mark this hook's jump leaves. -/
def mark (c : Code) (h : InlineHook) : JumpMark :=
  ⟨h.target, h.stolenLen, c.allocId h.trampoline.ptr⟩

def patchTarget (c : Code) (target : ℕ) (bytes : List UInt8) (mark : Option JumpMark) (ok : Bool) :
    Except DetourError Code :=
  if target = 0 ∨ bytes = [] then .error .invalidParameter
  else match c.writeCodeBytes target bytes mark ok with
    | none => .error .relocationFailed
    | some c => .ok c

def disable (c : Code) (h : InlineHook) (ok : Bool) : Except DetourError (Code × InlineHook) :=
  if h.enabled = false then .ok (c, h)
  else do
    let c ← patchTarget c h.target h.origBytes none ok
    return (c, { h with enabled := false })

def enable (c : Code) (h : InlineHook) (ok : Bool) : Except DetourError (Code × InlineHook) :=
  if h.active = false then .error .invalidParameter
  else if h.enabled then .ok (c, h)
  else do
    let c ← patchTarget c h.target h.patchBytes (some (h.mark c)) ok
    return (c, { h with enabled := true })

def performUnhook (c : Code) (h : InlineHook) (ok : Bool) : Except DetourError Code :=
  if h.target = 0 ∨ h.origBytes.length ≠ h.stolenLen then .error .invalidParameter
  else match c.writeCodeBytes h.target h.origBytes none ok with
    | none => .error .relocationFailed
    | some c => .ok c

/-- The managed-gateway part of `release`: one dependent less on the gateway it was chained on. -/
def releaseGateway (c : Code) (gateway : ℕ) : Code :=
  match c.removeGatewayDependent gateway with
  | ((ownerAlive, orphan), c) =>
    let c := if ownerAlive then c.registerManagedGateway gateway else c
    match orphan with
    | none => c
    | some r => c.retire r

/-- Withdraws what the commit published. -/
def release (c : Code) (h : InlineHook) : Code × InlineHook :=
  if h.published = false then (c, h)
  else
    let c := c.unregisterLivePatch h.target
    (match h.targetKind with
      | .managedGateway => releaseGateway c h.target
      | .normal => c, { h with published := false })

def detachFinalize (c : Code) (h : InlineHook) (ok : Bool) : Code × InlineHook :=
  let (c, h) := if h.enabled then (disable c h ok).toOption.getD (c, h) else (c, h)
  let (c, h) := release c h
  (c.unregisterManagedGateway h.trampoline.ptr, { h with active := false, enabled := false })

/-- The end of `Drop`: the stub goes to the hooks chained on it, or to the quarantine. -/
def dispose (c : Code) (h : InlineHook) : Code :=
  let c := c.unregisterManagedGateway h.trampoline.ptr
  match c.orphanChainedGateway h.trampoline.ptr h.trampoline.size with
  | (true, c) => c
  | (false, c) => c.dropTrampoline h.trampoline

/-- `Drop for InlineHook`: a target that cannot be restored keeps its stub and its registration. -/
def drop (c : Code) (h : InlineHook) (ok : Bool) : Code :=
  if h.active then
    match performUnhook c h ok with
    | .error _ => c
    | .ok c => let (c, h) := release c h; dispose c h
  else
    let (c, h) := release c h
    dispose c h

/-- `unhook` consumes the hook: a failed attempt is followed by the one of `Drop`. -/
def unhook (c : Code) (h : InlineHook) (ok dropOk : Bool) : Except DetourError Unit × Code :=
  if h.active = false then (.ok (), drop c h dropOk)
  else match performUnhook c h ok with
    | .error e => (.error e, drop c h dropOk)
    | .ok c =>
      let (c, h) := release c h
      (.ok (), drop (c.unregisterManagedGateway h.trampoline.ptr) { h with active := false } dropOk)

end InlineHook

end NeoHook
