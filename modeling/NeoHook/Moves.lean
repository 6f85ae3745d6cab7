import NeoHook.Machine

/-!
# Moves

A call of the library is a sequence of small moves on the code memory, its registries and the
objects that own stubs.  A `View` is what the moves act on; it also keeps what no object of the
program holds any more: hooks whose target could not be restored when they were dropped, and stubs
that belong to no inline hook.  A property of every reachable state is proved once for each move.

`Rules` are the conditions a run may put on its moves.
-/

namespace NeoHook

open ByteMap

structure View where
  code : Code
  /-- Inline hooks the program holds: published ones and detached ones. -/
  objs : Multiset InlineHook
  /-- Inline hooks a commit has patched and not published. -/
  flight : Multiset InlineHook
  /-- Inline hooks that were dropped although their target could not be restored. -/
  stranded : Multiset InlineHook
  pend : Multiset InlineData
  traps : Multiset Int3Hook
  /-- Stubs under construction, and stubs of export and INT3 hooks. -/
  held : Multiset Region

/-- Conditions on the moves of a run. -/
structure Rules where
  /-- A stub is allocated, during a pass or not. -/
  birth : Option Pass → Region → Prop
  /-- Stub memory is written, a block given by address and length, while these hooks exist. -/
  write : Multiset InlineData → Multiset InlineHook → Multiset Int3Hook → ℕ → ℕ → Prop
  queue : Code → InlineData → Prop
  /-- A hook is dropped although its target could not be restored. -/
  strand : InlineHook → Prop
  /-- The hook with the given gateway is detached. -/
  detach : Code → ℕ → Prop
  /-- An INT3 hook is removed although its byte could not be restored. -/
  scar : Prop
  /-- Function tables are registered again after a pass. -/
  readd : (ℕ → Bool) → Prop
  /-- Export hooks are used. -/
  exports : Prop
  /-- An INT3 hook is placed on the address. -/
  trap : ℕ → Prop := fun _ => True
  birth_of_idle : ∀ r, birth none r
  write_of_exports : exports → ∀ ds hs ts a n, write ds hs ts a n
  write_sub : ∀ {ds hs ts a n b k}, write ds hs ts a n → a ≤ b → b + k ≤ a + n → write ds hs ts b k

/-- What `attach_inner` knows of the entry it queues. -/
structure InlineData.Queued (c : Code) (d : InlineData) : Prop where
  target : d.target ≠ 0
  jump : d.jumpType = selectJump d.target d.detour
  room : d.jumpType.size ≤ d.stolenLen
  captured : d.origBytes = read c.mem d.target d.stolenLen
  normal : d.targetKind = .normal → c.overlapsLivePatch d.target d.stolenLen = false ∧
    read c.mem d.trampoline.ptr managedGatewayLen =
      managedGatewayStub (d.trampoline.ptr + managedGatewayLen)
  gateway : d.targetKind = .managedGateway → d.stolenLen = managedGatewayLen ∧
    d.target ∈ c.managedGateways ∧ c.chainedGateways d.target = none ∧
    ∃ dest, d.origBytes = managedGatewayStub dest ∧
      read c.mem d.trampoline.ptr managedGatewayLen = managedGatewayStub dest

namespace InlineHook

/-- The hook with its jump taken out. -/
def disabled (h : InlineHook) : InlineHook := { h with enabled := false }

/-- The hook with its jump put back. -/
def reenabled (h : InlineHook) : InlineHook := { h with enabled := true }

/-- The hook after a successful commit. -/
def announced (h : InlineHook) : InlineHook := { h with published := true }

/-- The hook after a detach. -/
def inert (h : InlineHook) : InlineHook :=
  { h with published := false, active := false, enabled := false }

end InlineHook

variable (R : Rules) (foreign : List Region)

/-- The moves. -/
inductive Move : View → View → Prop
  | allocate {v : View} {r : Region} (free : v.code.Free foreign r) (quiet : v.flight = 0)
      (birth : R.birth v.code.pass r) (write : R.write v.pend v.objs v.traps r.base r.mapped) :
      Move v { v with code := v.code.allocate r, held := r ::ₘ v.held }
  | fill {v : View} {r : Region} {a : ℕ} {bs : List UInt8} (held : r ∈ v.held) (lo : r.base ≤ a)
      (hi : a + bs.length ≤ r.base + r.mapped)
      (write : R.write v.pend v.objs v.traps a bs.length) :
      Move v { v with code := v.code.store a bs none }
  | unwind {v : View} {r : Region} (held : r ∈ v.held) :
      Move v { v with code := v.code.registerTable r.base }
  | queue {v : View} {d : InlineData} {rest : Multiset Region} (quiet : v.flight = 0)
      (held : v.held = d.trampoline.region ::ₘ rest) (queued : d.Queued v.code)
      (rule : R.queue v.code d) :
      Move v { v with pend := d ::ₘ v.pend, held := rest }
  | discard {v : View} {r : Region} {rest : Multiset Region} (held : v.held = r ::ₘ rest) :
      Move v { v with code := v.code.retire r, held := rest }
  | giveUp {v : View} {d : InlineData} {rest : Multiset InlineData} (pending : v.pend = d ::ₘ rest) :
      Move v { v with code := d.drop v.code, pend := rest }
  | patch {v : View} {d : InlineData} {rest : Multiset InlineData} {bytes : List UInt8}
      (pending : v.pend = d ::ₘ rest) (target : d.target ≠ 0)
      (encoded : inlinePatchBytes d.target d.detour d.jumpType d.stolenLen = .ok bytes)
      (clear : v.code.overlapsLivePatch d.target d.stolenLen = false)
      (apart : ∀ h ∈ v.flight, Apart h.target h.stolenLen d.target d.stolenLen)
      (owned : d.targetKind = .managedGateway → d.target ∈ v.code.managedGateways) :
      Move v { v with
        code := v.code.store d.target bytes (some ((d.install v.code bytes).mark v.code))
        pend := rest
        flight := d.install v.code bytes ::ₘ v.flight }
  | publish {v : View} {h : InlineHook} {rest : Multiset InlineHook} (flight : v.flight = h ::ₘ rest) :
      Move v { v with
        code := (publishInline v.code h).1
        flight := rest
        objs := h.announced ::ₘ v.objs }
  | undo {v : View} {h : InlineHook} {rest : Multiset InlineHook} (flight : v.flight = h ::ₘ rest) :
      Move v { v with
        code := v.code.store h.target h.origBytes none
        flight := h.disabled ::ₘ rest }
  | unravel {v : View} {h : InlineHook} {rest : Multiset InlineHook} (flight : v.flight = h ::ₘ rest)
      (off : h.enabled = false) :
      Move v { v with code := h.dispose v.code, flight := rest }
  | strandFlight {v : View} {h : InlineHook} {rest : Multiset InlineHook}
      (flight : v.flight = h ::ₘ rest) (rule : R.strand h) :
      Move v { v with flight := rest, stranded := h ::ₘ v.stranded }
  | restore {v : View} {h : InlineHook} {rest : Multiset InlineHook} (objs : v.objs = h ::ₘ rest)
      (active : h.active = true) :
      Move v { v with
        code := v.code.store h.target h.origBytes none
        objs := h.disabled ::ₘ rest }
  | enable {v : View} {h : InlineHook} {rest : Multiset InlineHook} (objs : v.objs = h ::ₘ rest)
      (active : h.active = true) (off : h.enabled = false) :
      Move v { v with
        code := v.code.store h.target h.patchBytes (some (h.mark v.code))
        objs := h.reenabled ::ₘ rest }
  | detach {v : View} {h : InlineHook} {rest : Multiset InlineHook} (objs : v.objs = h ::ₘ rest)
      (quiet : v.flight = 0) (off : h.enabled = false) (rule : R.detach v.code h.trampoline.ptr) :
      Move v { v with
        code := (h.release v.code).1.unregisterManagedGateway h.trampoline.ptr
        objs := h.inert ::ₘ rest }
  | remove {v : View} {h : InlineHook} {rest : Multiset InlineHook} (objs : v.objs = h ::ₘ rest)
      (quiet : v.flight = 0) (off : h.enabled = false) :
      Move v { v with code := h.dispose (h.release v.code).1, objs := rest }
  | strand {v : View} {h : InlineHook} {rest : Multiset InlineHook} (objs : v.objs = h ::ₘ rest)
      (active : h.active = true) (rule : R.strand h) :
      Move v { v with objs := rest, stranded := h ::ₘ v.stranded }
  | arm {v : View} {target detour slot : ℕ} {gateway : Option Trampoline} (quiet : v.flight = 0)
      (nonnull : target ≠ 0) (clear : v.code.overlapsLivePatch target 1 = false)
      (slot_eq : v.code.freeSlot target = .ok slot) (rule : R.trap target) :
      Move v { v with
        code := (v.code.setSlot slot target detour).store target [int3Opcode] none
        traps := ⟨target, detour, v.code.mem target, slot, true, gateway⟩ ::ₘ v.traps }
  | handler {v : View} {i : Int3Tables} (same : i.slotTarget = v.code.int3.slotTarget) :
      Move v { v with code := { v.code with int3 := i } }
  | disarm {v : View} {t : Int3Hook} {rest : Multiset Int3Hook} (traps : v.traps = t ::ₘ rest) :
      Move v { v with
        code := (v.code.store t.target [t.originalByte] none).setSlot t.slot 0 0
        traps := rest }
  | scar {v : View} {t : Int3Hook} {rest : Multiset Int3Hook} (traps : v.traps = t ::ₘ rest)
      (rule : R.scar) :
      Move v { v with code := v.code.setSlot t.slot 0 0, traps := rest }
  | beginPass {v : View} : Move v { v with code := v.code.beginPass }
  | freeRegions {v : View} {regions freed busy : List Region}
      (pass : v.code.pass = some ⟨regions, none⟩) (split : (freed ++ busy).Perm regions) :
      Move v { v with code := v.code.releaseRegions regions freed busy }
  | settlePass {v : View} {addOk : ℕ → Bool} (rule : R.readd addOk) :
      Move v { v with code := v.code.settlePass addOk }

/-- A sequence of moves. -/
def Path : View → View → Prop := Relation.ReflTransGen (Move R foreign)

theorem Path.refl {R : Rules} {foreign : List Region} {v : View} : Path R foreign v v :=
  Relation.ReflTransGen.refl

theorem Path.trans {R : Rules} {foreign : List Region} {v v' v'' : View} (h : Path R foreign v v')
    (h' : Path R foreign v' v'') : Path R foreign v v'' :=
  Relation.ReflTransGen.trans h h'

/-- What every move preserves, every sequence of moves preserves. -/
theorem Path.invariant {R : Rules} {foreign : List Region} {Inv : View → Prop}
    (move : ∀ {v v'}, Move R foreign v v' → Inv v → Inv v') {v v' : View}
    (path : Path R foreign v v') (h : Inv v) : Inv v' := by
  induction path with
  | refl => exact h
  | tail _ last ih => exact move last ih

end NeoHook
