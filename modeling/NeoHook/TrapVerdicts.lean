import NeoHook.TrapDetours

/-!
# Traps are never passed on

A thread that trapped on the `0xCC` of an INT3 hook finds the hook's slot, or finds the target in
the ring of removed ones, reads the byte and scans once more if it is a breakpoint again.  The last
scan succeeds unless the hook is removed a second time before it ends.
-/

namespace NeoHook

open Pool

/-- Threads trap on bytes that hooks wrote, modules stay loaded, and an original byte can be written
back. -/
def int3Traps : TrapRules where
  kind := .int3
  traps s a := s.patched a = true
  forgets := False
  answers w ok := match w with
    | .restore _ => ok = true
    | _ => True

/-- The trap a handler deals with. -/
def TrapCall.trap? : TrapCall → Option Trap
  | .scan t _ _ | .matched t _ _ | .ring t _ | .readByte t | .resync t _ _ | .live t _
  | .relive t _ => some t
  | _ => none

/-- The second scan for the address is under way. -/
def TrapCall.Rescans (a : ℕ) : TrapCall → Prop
  | .scan t true _ | .matched t true _ => t.addr = a
  | _ => False

/-- What a step of the lock holder must not do under the handlers: patch a byte that is `0xCC`
already, clear the slot of an address whose second scan is under way, retire a whole ring of targets
during one trap, or remove the handler while a trap at a retired address is handled. -/
def Writer.Spares (s : TrapState) (rest : Multiset TrapCall) : Writer → Prop
  | .arm t _ _ => s.mem t ≠ int3Opcode
  | .clearTarget h => ∀ q ∈ rest, ¬ q.Rescans h.target
  | .retire _ => ∀ q ∈ rest, ∀ t ∈ q.trap?, s.retirements + 1 < t.since + retiredLen
  | .removeHandler => ∀ q ∈ rest, ∀ t ∈ q.trap?, ∀ k < retiredLen, s.retired k ≠ t.addr
  | _ => True

/-- Every step of the lock holder spares the handlers. -/
def Spared (s : TrapState) (p : TrapCall) (rest : Multiset TrapCall) : Prop :=
  p = .hold → ∀ w ∈ s.writer, w.Spares s rest

/-- The slot an install has published and may still take back. -/
def Writer.installing : Writer → Option ℕ
  | .arm _ _ slot | .undoTarget slot | .undoDetour slot => some slot
  | _ => none

namespace TrapState

/-- No install may still take the slot back. -/
def Settled (s : TrapState) (j : ℕ) : Prop := ∀ w, s.writer = some w → w.installing ≠ some j

/-- A scan from slot `i` on finds the address. -/
def Visible (s : TrapState) (a i : ℕ) : Prop :=
  ∃ j, i ≤ j ∧ j < Code.maxHooks ∧ s.slotTarget j = a ∧ s.slotDetour j ≠ 0 ∧ s.Settled j

/-- How many targets were retired after entry `k` of the ring was written. -/
def age (s : TrapState) (k : ℕ) : ℕ := (s.retiredNext + retiredLen - 1 - k) % retiredLen

/-- A scan of the ring from entry `k` on finds the address, which was retired since the trap. -/
def InRing (s : TrapState) (t : Trap) (k : ℕ) : Prop :=
  ∃ k', k ≤ k' ∧ k' < retiredLen ∧ s.retired k' = t.addr ∧ s.age k' ≤ s.retirements - t.since

/-- The last retired target. -/
def LastRetired (s : TrapState) (a : ℕ) : Prop :=
  ∃ k < retiredLen, s.retired k = a ∧ s.age k = 0

/-- A hook's slot carries its target. -/
structure Lives (s : TrapState) (h : TrapHook) : Prop where
  slot : h.slot < Code.maxHooks
  nonnull : h.target ≠ 0
  target : s.slotTarget h.slot = h.target
  original : h.originalByte ≠ int3Opcode

/-- A hook that is being removed shares its slot with no other. -/
structure Leaves (s : TrapState) (h : TrapHook) : Prop extends Lives s h where
  alone : ∀ h' ∈ s.hooks, h'.slot ≠ h.slot

/-- No slot is in use. -/
def Empty (s : TrapState) (n : ℕ) : Prop := ∀ j < n, s.slotTarget j = 0

end TrapState

/-- What the lock holder has established. -/
def Writer.Good (s : TrapState) : Writer → Prop
  | .find t d _ free => t ≠ 0 ∧ d ≠ 0 ∧ ∀ j, free = some j → j < Code.maxHooks ∧ s.slotTarget j = 0
  | .register t d slot | .storeDetour t d slot =>
    t ≠ 0 ∧ d ≠ 0 ∧ slot < Code.maxHooks ∧ s.slotTarget slot = 0
  | .storeTarget t d slot =>
    t ≠ 0 ∧ d ≠ 0 ∧ slot < Code.maxHooks ∧ s.slotTarget slot = 0 ∧ s.slotDetour slot = d
  | .arm t d slot =>
    t ≠ 0 ∧ d ≠ 0 ∧ slot < Code.maxHooks ∧ s.slotTarget slot = t ∧ s.slotDetour slot = d
  | .undoTarget _ | .undoDetour _ => True
  | .retire h => s.Leaves h
  | .restore h => s.Leaves h ∧ s.LastRetired h.target
  | .clearTarget h => s.Leaves h ∧ s.LastRetired h.target ∧ s.patched h.target = false
  | .clearDetour h => s.slotTarget h.slot = 0
  | .releaseScan i => s.Empty i
  | .inFlight | .removeHandler | .clearRing _ => s.Empty Code.maxHooks
  | .storeArmed .. | .disarm _ => False

structure TrapState.Good (s : TrapState) : Prop where
  next_lt : s.retiredNext < retiredLen
  hooks : ∀ h ∈ s.hooks, s.Lives h ∧ s.Settled h.slot
  nodup : (s.hooks.map (·.slot)).Nodup
  patched : ∀ a, s.patched a = true → a ≠ 0 ∧ s.Visible a 0
  writer : ∀ w, s.writer = some w → w.Good s
  verdicts : ∀ a, (a, .search) ∉ s.verdicts

/-- What a handler that may still need the ring relies on. -/
structure Trap.Tracked (s : TrapState) (t : Trap) : Prop where
  nonnull : t.addr ≠ 0
  since : t.since ≤ s.retirements ∧ s.retirements < t.since + retiredLen
  byte : s.mem t.addr = int3Opcode → s.patched t.addr = true
  kept : ∀ k, s.writer ≠ some (.clearRing k)

def TrapCall.Good (s : TrapState) : TrapCall → Prop
  | .scan t false i => t.Tracked s ∧ (s.InRing t 0 ∨ s.Visible t.addr i)
  | .matched t false i =>
    (t.Tracked s ∧ (s.InRing t 0 ∨ s.Visible t.addr i)) ∧ i < Code.maxHooks
  | .ring t k => t.Tracked s ∧ s.InRing t k
  | .readByte t => t.addr ≠ 0 ∧ (s.mem t.addr = int3Opcode → s.patched t.addr = true)
  | .scan t true i => t.addr ≠ 0 ∧ s.Visible t.addr i
  | .matched t true i => (t.addr ≠ 0 ∧ s.Visible t.addr i) ∧ i < Code.maxHooks
  | .resync .. | .live .. | .relive .. | .forget _ => False
  | .want (.install t d) => t ≠ 0 ∧ d ≠ 0
  | .want _ | .hold => True

namespace TrapState

variable {s s' : TrapState}

/-! ### What the handlers see -/

theorem Visible.mono {a i : ℕ} (h : s.Visible a i) (nonnull : a ≠ 0)
    (keeps : ∀ j, s.slotTarget j ≠ 0 → s.Settled j →
      s'.slotTarget j = s.slotTarget j ∧ s'.slotDetour j = s.slotDetour j ∧ s'.Settled j) :
    s'.Visible a i := by
  obtain ⟨j, le, lt, target, detour, settled⟩ := h
  obtain ⟨target', detour', settled'⟩ := keeps j (target ▸ nonnull) settled
  exact ⟨j, le, lt, target' ▸ target, detour' ▸ detour, settled'⟩

theorem Visible.next {a i : ℕ} (h : s.Visible a i)
    (here : s.slotTarget i ≠ a ∨ s.slotDetour i = 0) : s.Visible a (i + 1) := by
  obtain ⟨j, le, lt, target, detour, settled⟩ := h
  have differs : i ≠ j := by
    rintro rfl
    rcases here with other | none
    · exact other target
    · exact detour none
  exact ⟨j, by omega, lt, target, detour, settled⟩

theorem Visible.lt {a i : ℕ} (h : s.Visible a i) : i < Code.maxHooks := by
  obtain ⟨j, le, lt, -⟩ := h
  omega

theorem InRing.next {t : Trap} {k : ℕ} (h : s.InRing t k) (here : s.retired k ≠ t.addr) :
    s.InRing t (k + 1) := by
  obtain ⟨k', le, lt, entry, age⟩ := h
  have differs : k ≠ k' := fun eq => here (eq ▸ entry)
  exact ⟨k', by omega, lt, entry, age⟩

theorem InRing.lt {t : Trap} {k : ℕ} (h : s.InRing t k) : k < retiredLen := by
  obtain ⟨k', le, lt, -⟩ := h
  omega

/-- The entry that was written last stays for as long as a trap takes. -/
theorem InRing.of_last {t : Trap} (last : s.LastRetired t.addr) : s.InRing t 0 := by
  obtain ⟨k, lt, entry, age⟩ := last
  exact ⟨k, Nat.zero_le k, lt, entry, by omega⟩

/-- Retiring another target leaves the entries a trap may need, if it has not lasted for a whole
ring of them. -/
theorem InRing.retire {t : Trap} {k target : ℕ} (h : s.InRing t k) (lt : s.retiredNext < retiredLen)
    (since : t.since ≤ s.retirements) (few : s.retirements + 1 < t.since + retiredLen) :
    (s.retire retiredLen target).InRing t k := by
  obtain ⟨k', le, inside, entry, young⟩ := h
  unfold age retiredLen at young
  unfold retiredLen at lt few inside
  have differs : k' ≠ s.retiredNext := by omega
  refine ⟨k', le, inside, ?_, ?_⟩
  · exact (Function.update_of_ne differs target s.retired).trans entry
  · change ((s.retiredNext + 1) % 1024 + 1024 - 1 - k') % 1024 ≤ s.retirements + 1 - t.since
    omega

theorem lastRetired_retire {target : ℕ} (lt : s.retiredNext < retiredLen) :
    (s.retire retiredLen target).LastRetired target := by
  refine ⟨s.retiredNext, lt, Function.update_self _ _ _, ?_⟩
  unfold retiredLen at lt
  change ((s.retiredNext + 1) % 1024 + 1024 - 1 - s.retiredNext) % 1024 = 0
  omega

/-! ### What a step leaves alone -/

section Poke

variable {a target : ℕ} (byte : UInt8) (ours : Bool)

theorem poke_mem_self : (s.poke target byte ours).mem target = byte := Function.update_self _ _ _

theorem poke_mem_of_ne (h : a ≠ target) : (s.poke target byte ours).mem a = s.mem a :=
  Function.update_of_ne h _ _

theorem poke_patched_self : (s.poke target byte ours).patched target = ours :=
  Function.update_self _ _ _

theorem poke_patched_of_ne (h : a ≠ target) : (s.poke target byte ours).patched a = s.patched a :=
  Function.update_of_ne h _ _

end Poke

/-- Slots in use that no install may take back are as before, and so they stay. -/
def Keeps (s s' : TrapState) : Prop :=
  ∀ j, s.slotTarget j ≠ 0 → s.Settled j →
    s'.slotTarget j = s.slotTarget j ∧ s'.slotDetour j = s.slotDetour j ∧ s'.Settled j

theorem settled_of_none {j : ℕ} (h : ∀ w, s.writer = some w → w.installing = none) : s.Settled j := by
  intro w eq
  rw [h w eq]
  exact (nomatch ·)

/-- The lock holder goes on to a point at which it installs nothing. -/
theorem Keeps.goto {w : Option Writer} (none_ : ∀ v, w = some v → v.installing = none)
    (targets : s'.slotTarget = s.slotTarget) (detours : s'.slotDetour = s.slotDetour)
    (at_ : s'.writer = w) : Keeps s s' := by
  intro j _ _
  refine ⟨by rw [targets], by rw [detours], settled_of_none fun v eq => none_ v (at_ ▸ eq)⟩

theorem Good.keep (h : s.Good) (keeps : Keeps s s') (next_lt : s'.retiredNext < retiredLen)
    (hooks : s'.hooks = s.hooks) (patched : ∀ a, s'.patched a = true → s.patched a = true)
    (verdicts : s'.verdicts = s.verdicts) (writer : ∀ w, s'.writer = some w → w.Good s') :
    s'.Good where
  next_lt := next_lt
  hooks k mem := by
    rw [hooks] at mem
    obtain ⟨lives, settled⟩ := h.hooks k mem
    have used : s.slotTarget k.slot ≠ 0 := lives.target ▸ lives.nonnull
    obtain ⟨target, -, settled'⟩ := keeps k.slot used settled
    exact ⟨⟨lives.slot, lives.nonnull, target.trans lives.target, lives.original⟩, settled'⟩
  nodup := hooks ▸ h.nodup
  patched a ours := by
    obtain ⟨nonnull, visible⟩ := h.patched a (patched a ours)
    exact ⟨nonnull, visible.mono nonnull keeps⟩
  writer := writer
  verdicts := verdicts ▸ h.verdicts

/-- A byte that is a breakpoint is a hook's, if it was before. -/
def KeepsBytes (s s' : TrapState) : Prop :=
  ∀ a, (s.mem a = int3Opcode → s.patched a = true) → s'.mem a = int3Opcode → s'.patched a = true

/-- The ring is as before and is not being cleared. -/
structure KeepsRing (s s' : TrapState) : Prop where
  retired : s'.retired = s.retired
  next : s'.retiredNext = s.retiredNext
  count : s'.retirements = s.retirements
  writer : ∀ k, s'.writer ≠ some (.clearRing k)

end TrapState

open TrapState

theorem TrapState.KeepsRing.inRing {s s' : TrapState} (h : KeepsRing s s') {t : Trap} {k : ℕ}
    (ring : s.InRing t k) : s'.InRing t k := by
  unfold InRing age at ring ⊢
  rw [h.retired, h.next, h.count]
  exact ring

theorem Trap.Tracked.mono {s s' : TrapState} {t : Trap} (h : t.Tracked s) (ring : KeepsRing s s')
    (bytes : KeepsBytes s s') : t.Tracked s' :=
  ⟨h.nonnull, ring.count ▸ h.since, bytes _ h.byte, ring.writer⟩

/-- A handler goes on as before if a step keeps what it can still find of its trap. -/
theorem TrapCall.Good.map {s s' : TrapState} {q : TrapCall} (h : q.Good s)
    (bytes : KeepsBytes s s')
    (first : ∀ t ∈ q.trap?, ∀ i, t.Tracked s → s.InRing t 0 ∨ s.Visible t.addr i →
      t.Tracked s' ∧ (s'.InRing t 0 ∨ s'.Visible t.addr i))
    (ring : ∀ t ∈ q.trap?, ∀ k, t.Tracked s → s.InRing t k → t.Tracked s' ∧ s'.InRing t k)
    (again : ∀ t ∈ q.trap?, q.Rescans t.addr → ∀ i, t.addr ≠ 0 → s.Visible t.addr i →
      s'.Visible t.addr i) :
    q.Good s' := by
  cases q with
  | scan t second i =>
    cases second with
    | false => exact first t rfl i h.1 h.2
    | true => exact ⟨h.1, again t rfl rfl i h.1 h.2⟩
  | matched t second i =>
    cases second with
    | false => exact ⟨first t rfl i h.1.1 h.1.2, h.2⟩
    | true => exact ⟨⟨h.1.1, again t rfl rfl i h.1.1 h.1.2⟩, h.2⟩
  | ring t k => exact ring t rfl k h.1 h.2
  | readByte t => exact ⟨h.1, bytes _ h.2⟩
  | want r => cases r <;> exact h
  | resync | live | relive | forget => exact h.elim
  | hold => trivial

/-- A handler goes on as before if its slots, the ring and the bytes are kept. -/
theorem TrapCall.Good.mono {s s' : TrapState} {q : TrapCall} (h : q.Good s) (keeps : Keeps s s')
    (ring : KeepsRing s s') (bytes : KeepsBytes s s') : q.Good s' := by
  refine h.map bytes ?_ ?_ ?_
  · intro t _ i tracked found
    exact ⟨tracked.mono ring bytes, found.imp ring.inRing (·.mono tracked.nonnull keeps)⟩
  · intro t _ k tracked found
    exact ⟨tracked.mono ring bytes, ring.inRing found⟩
  · intro t _ _ i nonnull visible
    exact visible.mono nonnull keeps

/-! ### The lock holder -/

section Holder

variable {ok : Bool} {s : TrapState}

theorem TrapState.KeepsBytes.same {s s' : TrapState} (mem : s'.mem = s.mem)
    (patched : s'.patched = s.patched) : KeepsBytes s s' := by
  intro a h byte
  rw [patched]
  rw [mem] at byte
  exact h byte

/-- Both parts of the invariant after a step of the lock holder that keeps slots, ring and bytes. -/
theorem good_of_keeps {s s' : TrapState} {rest : Multiset TrapCall} (h : s.Good)
    (others : ∀ q ∈ rest, q.Good s) (keeps : Keeps s s') (ring : KeepsRing s s')
    (bytes : KeepsBytes s s') (hooks : s'.hooks = s.hooks)
    (patched : ∀ a, s'.patched a = true → s.patched a = true) (verdicts : s'.verdicts = s.verdicts)
    (writer : ∀ w, s'.writer = some w → w.Good s') : s'.Good ∧ ∀ q ∈ rest, q.Good s' :=
  ⟨h.keep keeps (ring.next ▸ h.next_lt) hooks patched verdicts writer,
    fun q mem => (others q mem).mono keeps ring bytes⟩

/-- A step that only moves the lock holder to a point that neither installs nor clears the ring. -/
theorem good_goto {rest : Multiset TrapCall} (h : s.Good) (others : ∀ q ∈ rest, q.Good s)
    {w : Option Writer} (quiet : ∀ v, w = some v → v.installing = none ∧ ∀ k, v ≠ .clearRing k)
    (good : ∀ v, w = some v → v.Good (s.goto w)) :
    (s.goto w).Good ∧ ∀ q ∈ rest, q.Good (s.goto w) :=
  good_of_keeps h others (.goto (fun v eq => (quiet v eq).1) rfl rfl rfl)
    ⟨rfl, rfl, rfl, fun k eq => (quiet _ eq).2 k rfl⟩ (.same rfl rfl) rfl (fun _ h => h) rfl good

/-- The same, to a known point. -/
theorem good_next {rest : Multiset TrapCall} (h : s.Good) (others : ∀ q ∈ rest, q.Good s)
    {w : Writer} (quiet : w.installing = none) (clears : ∀ k, w ≠ .clearRing k)
    (good : w.Good (s.goto (some w))) :
    (s.goto (some w)).Good ∧ ∀ q ∈ rest, q.Good (s.goto (some w)) := by
  refine good_goto h others (fun v eq => ?_) (fun v eq => ?_)
  · cases eq
    exact ⟨quiet, clears⟩
  · cases eq
    exact good

variable {rest : Multiset TrapCall}

/-- A step that changes one slot that is not in use, or that an install may take back. -/
theorem keeps_of_slot {s' : TrapState} {slot : ℕ} (unused : s.slotTarget slot = 0 ∨ ¬ s.Settled slot)
    (targets : ∀ j ≠ slot, s'.slotTarget j = s.slotTarget j)
    (detours : ∀ j ≠ slot, s'.slotDetour j = s.slotDetour j)
    (installing : ∀ w, s'.writer = some w → w.installing = none ∨ w.installing = some slot) :
    Keeps s s' := by
  intro j used settled
  have differs : j ≠ slot := by
    rintro rfl
    rcases unused with zero | unsettled
    · exact used zero
    · exact unsettled settled
  refine ⟨targets j differs, detours j differs, fun w eq => ?_⟩
  rcases installing w eq with none_ | here
  · rw [none_]
    exact (nomatch ·)
  · rw [here]
    exact fun same => differs (Option.some.inj same).symm

/-- The lock holder's slot is not settled while it may take it back. -/
theorem not_settled {w : Writer} {slot : ℕ} (at_ : s.writer = some w)
    (installs : w.installing = some slot) : ¬ s.Settled slot := fun settled =>
  settled w at_ installs

/-- The byte is patched, or the slot is taken back. -/
theorem arm_good {t d slot : ℕ} (h : s.Good) (at_ : s.writer = some (.arm t d slot))
    (others : ∀ q ∈ rest, q.Good s) (spares : s.mem t ≠ int3Opcode) :
    ((Writer.arm t d slot).access .int3 ok s).Good ∧
      ∀ q ∈ rest, q.Good ((Writer.arm t d slot).access .int3 ok s) := by
  obtain ⟨nonnull, live, inside, target, detour⟩ := h.writer _ at_
  have unsettled : ¬ s.Settled slot := not_settled at_ rfl
  cases ok with
  | false =>
    refine good_of_keeps h others (keeps_of_slot (.inr unsettled) (fun _ _ => rfl)
      (fun _ _ => rfl) ?_) ⟨rfl, rfl, rfl, nofun⟩ (.same rfl rfl) rfl (fun _ h => h) rfl ?_
    · rintro v ⟨⟩
      exact .inr rfl
    · rintro v ⟨⟩
      trivial
  | true =>
    set s' := (Writer.arm t d slot).access .int3 true s with after
    have keeps : Keeps s s' := .goto (w := none) nofun rfl rfl rfl
    have settled (j : ℕ) : s'.Settled j := settled_of_none fun v eq => nomatch (eq : none = some v)
    have mem_of_ne {a : ℕ} (here : a ≠ t) : s'.mem a = s.mem a := s.poke_mem_of_ne int3Opcode true here
    have patched_of_ne {a : ℕ} (here : a ≠ t) : s'.patched a = s.patched a :=
      s.poke_patched_of_ne int3Opcode true here
    have bytes : KeepsBytes s s' := by
      intro a before byte
      by_cases here : a = t
      · rw [here]
        exact s.poke_patched_self int3Opcode true
      · rw [patched_of_ne here]
        exact before (mem_of_ne here ▸ byte)
    refine ⟨⟨h.next_lt, ?_, ?_, ?_, (fun v eq => nomatch (eq : none = some v)), h.verdicts⟩,
      fun q mem => (others q mem).mono keeps ⟨rfl, rfl, rfl, nofun⟩ bytes⟩
    · intro k mem
      rcases Multiset.mem_cons.mp mem with rfl | mem
      · exact ⟨⟨inside, nonnull, target, spares⟩, settled slot⟩
      · obtain ⟨lives, -⟩ := h.hooks k mem
        exact ⟨⟨lives.slot, lives.nonnull, lives.target, lives.original⟩, settled k.slot⟩
    · refine (Multiset.map_cons _ _ _).symm ▸ Multiset.nodup_cons.mpr ⟨?_, h.nodup⟩
      intro mem
      obtain ⟨k, held, same⟩ := Multiset.mem_map.mp mem
      have same : k.slot = slot := same
      exact unsettled (same ▸ (h.hooks k held).2)
    · intro a ours
      by_cases here : a = t
      · subst here
        exact ⟨nonnull, slot, Nat.zero_le slot, inside, target, detour ▸ live, settled slot⟩
      · rw [patched_of_ne here] at ours
        obtain ⟨nonnull, visible⟩ := h.patched a ours
        exact ⟨nonnull, visible.mono nonnull keeps⟩

/-- The target of a hook that is removed goes to the ring. -/
theorem retire_good {hook : TrapHook} (h : s.Good) (others : ∀ q ∈ rest, q.Good s)
    (leaves : s.Leaves hook)
    (few : ∀ q ∈ rest, ∀ t ∈ q.trap?, s.retirements + 1 < t.since + retiredLen) :
    ((Writer.retire hook).access .int3 ok s).Good ∧
      ∀ q ∈ rest, q.Good ((Writer.retire hook).access .int3 ok s) := by
  set s' := (Writer.retire hook).access .int3 ok s with after
  have keeps : Keeps s s' := .goto (by rintro v ⟨⟩; rfl) rfl rfl rfl
  have bytes : KeepsBytes s s' := .same rfl rfl
  have tracked {q : TrapCall} (mem : q ∈ rest) {t : Trap} (mine : t ∈ q.trap?)
      (before : t.Tracked s) : t.Tracked s' :=
    ⟨before.nonnull, ⟨Nat.le_succ_of_le before.since.1, few q mem t mine⟩, before.byte, nofun⟩
  have ring {q : TrapCall} (mem : q ∈ rest) {t : Trap} (mine : t ∈ q.trap?)
      (before : t.Tracked s) {k : ℕ} (found : s.InRing t k) : s'.InRing t k :=
    found.retire h.next_lt before.since.1 (few q mem t mine)
  refine ⟨h.keep keeps (Nat.mod_lt _ (by decide)) rfl (fun _ h => h) rfl ?_, fun q mem =>
    (others q mem).map bytes ?_ ?_ ?_⟩
  · rintro v ⟨⟩
    exact ⟨⟨⟨leaves.slot, leaves.nonnull, leaves.target, leaves.original⟩, leaves.alone⟩,
      lastRetired_retire h.next_lt⟩
  · intro t mine i before found
    exact ⟨tracked mem mine before,
      found.imp (ring mem mine before) (·.mono before.nonnull keeps)⟩
  · intro t mine k before found
    exact ⟨tracked mem mine before, ring mem mine before found⟩
  · intro t _ _ i nonnull visible
    exact visible.mono nonnull keeps

/-- The original byte is back. -/
theorem restore_good {hook : TrapHook} (h : s.Good) (others : ∀ q ∈ rest, q.Good s)
    (mine : s.Leaves hook ∧ s.LastRetired hook.target) (written : ok = true) :
    ((Writer.restore hook).access .int3 ok s).Good ∧
      ∀ q ∈ rest, q.Good ((Writer.restore hook).access .int3 ok s) := by
  subst written
  obtain ⟨leaves, last⟩ := mine
  set s' := (Writer.restore hook).access .int3 true s with after
  have mem_of_ne {a : ℕ} (here : a ≠ hook.target) : s'.mem a = s.mem a :=
    s.poke_mem_of_ne hook.originalByte false here
  have patched_of_ne {a : ℕ} (here : a ≠ hook.target) : s'.patched a = s.patched a :=
    s.poke_patched_of_ne hook.originalByte false here
  have byte_self : s'.mem hook.target = hook.originalByte := s.poke_mem_self hook.originalByte false
  have restored : s'.patched hook.target = false := s.poke_patched_self hook.originalByte false
  refine good_of_keeps h others (.goto (by rintro v ⟨⟩; rfl) rfl rfl rfl)
    ⟨rfl, rfl, rfl, nofun⟩ ?_ rfl ?_ rfl ?_
  · intro a before byte
    by_cases here : a = hook.target
    · rw [here, byte_self] at byte
      exact absurd byte leaves.original
    · rw [patched_of_ne here]
      exact before (mem_of_ne here ▸ byte)
  · intro a ours
    by_cases here : a = hook.target
    · rw [here, restored] at ours
      cases ours
    · exact patched_of_ne here ▸ ours
  · rintro v ⟨⟩
    exact ⟨⟨⟨leaves.slot, leaves.nonnull, leaves.target, leaves.original⟩, leaves.alone⟩, last,
      restored⟩

/-- The slot is given up: a first scan that relied on it finds the target in the ring instead. -/
theorem clearTarget_good {hook : TrapHook} (h : s.Good) (others : ∀ q ∈ rest, q.Good s)
    (mine : s.Leaves hook ∧ s.LastRetired hook.target ∧ s.patched hook.target = false)
    (spares : ∀ q ∈ rest, ¬ q.Rescans hook.target) :
    ((Writer.clearTarget hook).access .int3 ok s).Good ∧
      ∀ q ∈ rest, q.Good ((Writer.clearTarget hook).access .int3 ok s) := by
  obtain ⟨leaves, last, restored⟩ := mine
  set s' := (Writer.clearTarget hook).access .int3 ok s with after
  have settled (j : ℕ) : s'.Settled j := settled_of_none (by rintro v ⟨⟩; rfl)
  have other {j : ℕ} (differs : j ≠ hook.slot) : s'.slotTarget j = s.slotTarget j :=
    Function.update_of_ne differs 0 s.slotTarget
  have visible {a i : ℕ} (differs : a ≠ hook.target) (before : s.Visible a i) :
      s'.Visible a i := by
    obtain ⟨j, le, lt, target, detour, -⟩ := before
    have elsewhere : j ≠ hook.slot := fun eq => differs (target.symm.trans (eq ▸ leaves.target))
    exact ⟨j, le, lt, (other elsewhere).trans target, detour, settled j⟩
  have tracked {t : Trap} (before : t.Tracked s) : t.Tracked s' :=
    ⟨before.nonnull, before.since, before.byte, nofun⟩
  refine ⟨⟨h.next_lt, ?_, h.nodup, ?_, ?_, h.verdicts⟩, fun q mem =>
    (others q mem).map (.same rfl rfl) ?_ ?_ ?_⟩
  · intro k held
    obtain ⟨lives, -⟩ := h.hooks k held
    exact ⟨⟨lives.slot, lives.nonnull, (other (leaves.alone k held)).trans lives.target,
      lives.original⟩, settled k.slot⟩
  · intro a ours
    obtain ⟨nonnull, before⟩ := h.patched a ours
    refine ⟨nonnull, visible ?_ before⟩
    rintro rfl
    exact absurd (restored.symm.trans ours) nofun
  · rintro v ⟨⟩
    exact Function.update_self hook.slot 0 s.slotTarget
  · intro t _ i before found
    refine ⟨tracked before, ?_⟩
    by_cases here : t.addr = hook.target
    · exact .inl (InRing.of_last (here ▸ last))
    · exact found.imp id (visible here)
  · intro t _ k before found
    exact ⟨tracked before, found⟩
  · intro t _ rescans i _ found
    exact visible (fun eq => spares q mem (eq ▸ rescans)) found

/-- No slot is in use and no trap at a retired address is handled, so no handler needs the ring. -/
theorem removeHandler_good (h : s.Good) (others : ∀ q ∈ rest, q.Good s)
    (empty : s.Empty Code.maxHooks)
    (spares : ∀ q ∈ rest, ∀ t ∈ q.trap?, ∀ k < retiredLen, s.retired k ≠ t.addr) :
    (Writer.removeHandler.access .int3 ok s).Good ∧
      ∀ q ∈ rest, q.Good (Writer.removeHandler.access .int3 ok s) := by
  set s' := Writer.removeHandler.access .int3 ok s with after
  have keeps : Keeps s s' := .goto (by rintro v ⟨⟩; rfl) rfl rfl rfl
  have invisible {a i : ℕ} (nonnull : a ≠ 0) : ¬ s.Visible a i := by
    rintro ⟨j, -, lt, target, -⟩
    exact nonnull (target.symm.trans (empty j lt))
  have outside {q : TrapCall} (mem : q ∈ rest) {t : Trap} (mine : t ∈ q.trap?) {k : ℕ} :
      ¬ s.InRing t k := by
    rintro ⟨k', -, lt, entry, -⟩
    exact spares q mem t mine k' lt entry
  refine ⟨h.keep keeps h.next_lt rfl (fun _ h => h) rfl ?_, fun q mem =>
    (others q mem).map (.same rfl rfl) ?_ ?_ ?_⟩
  · rintro v ⟨⟩
    exact empty
  · intro t mine i before found
    rcases found with ring | visible
    · exact absurd ring (outside mem mine)
    · exact absurd visible (invisible before.nonnull)
  · intro t mine k _ found
    exact absurd found (outside mem mine)
  · intro t _ _ i nonnull visible
    exact absurd visible (invisible nonnull)

/-- The ring is cleared only when no handler relies on it. -/
theorem clearRing_good {k : ℕ} (h : s.Good) (at_ : s.writer = some (.clearRing k))
    (others : ∀ q ∈ rest, q.Good s) :
    ((Writer.clearRing k).access .int3 ok s).Good ∧
      ∀ q ∈ rest, q.Good ((Writer.clearRing k).access .int3 ok s) := by
  have empty := h.writer _ at_
  have idle {s' : TrapState} (keeps : Keeps s s') (bytes : KeepsBytes s s') :
      ∀ q ∈ rest, q.Good s' := by
    refine fun q mem => (others q mem).map bytes ?_ ?_ ?_
    · exact fun t _ i before _ => absurd at_ (before.kept k)
    · exact fun t _ i before _ => absurd at_ (before.kept k)
    · exact fun t _ _ i nonnull visible => visible.mono nonnull keeps
  simp only [Writer.access]
  split_ifs
  · have keeps : Keeps s ({ s with retired := Function.update s.retired k 0 }.goto
        (some (.clearRing (k + 1)))) := .goto (by rintro v ⟨⟩; rfl) rfl rfl rfl
    refine ⟨h.keep keeps h.next_lt rfl (fun _ h => h) rfl ?_, idle keeps (.same rfl rfl)⟩
    rintro v ⟨⟩
    exact empty
  · have keeps : Keeps s ({ s with retiredNext := 0 }.goto none) :=
      .goto (w := none) (fun _ eq => by cases eq) rfl rfl rfl
    have inside : 0 < retiredLen := by decide
    exact ⟨h.keep keeps inside rfl (fun _ h => h) rfl (fun v eq => by cases eq),
      idle keeps (.same rfl rfl)⟩

theorem Writer.access_good {w : Writer} (h : s.Good) (at_ : s.writer = some w)
    (others : ∀ q ∈ rest, q.Good s) (spares : w.Spares s rest) (answers : int3Traps.answers w ok) :
    (w.access .int3 ok s).Good ∧ ∀ q ∈ rest, q.Good (w.access .int3 ok s) := by
  have mine := h.writer w at_
  have done : (s.goto none).Good ∧ ∀ q ∈ rest, q.Good (s.goto none) :=
    good_goto h others (fun _ eq => by cases eq) (fun _ eq => by cases eq)
  cases w with
  | find t d i free =>
    simp only [access]
    split_ifs with inside taken empty
    · exact done
    · refine good_next h others rfl (fun _ eq => by cases eq) ?_
      refine ⟨mine.1, mine.2.1, fun j found => ?_⟩
      rw [← Option.some.inj found]
      exact ⟨inside, empty.1⟩
    · exact good_next h others rfl (fun _ eq => by cases eq) mine
    · cases free with
      | none => exact done
      | some slot =>
        exact good_next h others rfl (fun _ eq => by cases eq)
          ⟨mine.1, mine.2.1, mine.2.2 slot rfl⟩
  | register t d slot =>
    simp only [access]
    split_ifs
    · exact good_next h others rfl (fun _ eq => by cases eq) mine
    · refine good_of_keeps h others (.goto ?_ rfl rfl rfl)
        ⟨rfl, rfl, rfl, fun _ eq => by cases eq⟩ (.same rfl rfl) rfl (fun _ h => h) rfl ?_
      · rintro v ⟨⟩
        rfl
      · rintro v ⟨⟩
        exact mine
    · exact done
  | storeDetour t d slot =>
    refine good_of_keeps h others (keeps_of_slot (.inl mine.2.2.2) (fun _ _ => rfl) ?_ ?_)
      ⟨rfl, rfl, rfl, fun _ eq => by cases eq⟩ (.same rfl rfl) rfl (fun _ h => h) rfl ?_
    · intro j differs
      exact Function.update_of_ne differs d s.slotDetour
    · rintro v ⟨⟩
      exact .inl rfl
    · rintro v ⟨⟩
      refine ⟨mine.1, mine.2.1, mine.2.2.1, mine.2.2.2, ?_⟩
      exact Function.update_self slot d s.slotDetour
  | storeArmed => exact mine.elim
  | storeTarget t d slot =>
    refine good_of_keeps h others (keeps_of_slot (.inl mine.2.2.2.1) ?_ (fun _ _ => rfl) ?_)
      ⟨rfl, rfl, rfl, fun _ eq => by cases eq⟩ (.same rfl rfl) rfl (fun _ h => h) rfl ?_
    · intro j differs
      exact Function.update_of_ne differs t s.slotTarget
    · rintro v ⟨⟩
      exact .inr rfl
    · rintro v ⟨⟩
      refine ⟨mine.1, mine.2.1, mine.2.2.1, ?_, mine.2.2.2.2⟩
      exact Function.update_self slot t s.slotTarget
  | arm t d slot => exact arm_good h at_ others spares
  | undoTarget slot =>
    refine good_of_keeps h others (keeps_of_slot (.inr (not_settled at_ rfl)) ?_ (fun _ _ => rfl) ?_)
      ⟨rfl, rfl, rfl, fun _ eq => by cases eq⟩ (.same rfl rfl) rfl (fun _ h => h) rfl ?_
    · intro j differs
      exact Function.update_of_ne differs 0 s.slotTarget
    · rintro v ⟨⟩
      exact .inr rfl
    · rintro v ⟨⟩
      trivial
  | undoDetour slot =>
    refine good_of_keeps h others (keeps_of_slot (.inr (not_settled at_ rfl)) (fun _ _ => rfl) ?_ ?_)
      ⟨rfl, rfl, rfl, fun _ eq => by cases eq⟩ (.same rfl rfl) rfl (fun _ h => h) rfl ?_
    · intro j differs
      exact Function.update_of_ne differs 0 s.slotDetour
    · rintro v ⟨⟩
      exact .inl rfl
    · rintro v ⟨⟩
      exact fun j lt => absurd lt (Nat.not_lt_zero j)
  | disarm => exact mine.elim
  | retire hook => exact retire_good h others mine spares
  | restore hook => exact restore_good h others mine answers
  | clearTarget hook => exact clearTarget_good h others mine spares
  | clearDetour hook =>
    refine good_of_keeps h others (keeps_of_slot (.inl mine) (fun _ _ => rfl) ?_ ?_)
      ⟨rfl, rfl, rfl, fun _ eq => by cases eq⟩ (.same rfl rfl) rfl (fun _ h => h) rfl ?_
    · intro j differs
      exact Function.update_of_ne differs 0 s.slotDetour
    · rintro v ⟨⟩
      exact .inl rfl
    · rintro v ⟨⟩
      exact fun j lt => absurd lt (Nat.not_lt_zero j)
  | releaseScan i =>
    simp only [access]
    by_cases idle : s.handler = false ∨ (TrapKind.int3 = .veh ∧ s.keepHandler = true)
    · rw [if_pos idle]
      exact done
    rw [if_neg idle]
    by_cases inside : i < TrapKind.int3.slots
    · rw [if_pos inside]
      by_cases free : s.slotTarget i = 0
      · rw [if_pos free]
        refine good_next h others rfl (fun _ eq => by cases eq) ?_
        intro j lt
        rcases Nat.lt_succ_iff_lt_or_eq.mp lt with lt | rfl
        · exact mine j lt
        · exact free
      · rw [if_neg free]
        exact done
    · rw [if_neg inside]
      exact good_next h others rfl (fun _ eq => by cases eq)
        fun j lt => mine j (lt_of_lt_of_le lt (not_lt.mp inside))
  | inFlight =>
    simp only [access]
    by_cases clear : ok = true
    · rw [if_pos clear]
      exact good_next h others rfl (fun _ eq => by cases eq) mine
    · rw [if_neg clear]
      exact done
  | removeHandler => exact removeHandler_good h others mine spares
  | clearRing k => exact clearRing_good h at_ others

theorem TrapRequest.start_good {r : TrapRequest} (h : s.Good) (asked : (TrapCall.want r).Good s)
    (held : ∀ hook, r = .remove hook → hook ∈ s.hooks)
    (others : ∀ q ∈ rest, q.Good s) :
    (r.start .int3 ok s).Good ∧ ∀ q ∈ rest, q.Good (r.start .int3 ok s) := by
  cases r with
  | install t d =>
    simp only [start]
    split_ifs
    · exact ⟨h, others⟩
    · exact good_next h others rfl (fun _ eq => by cases eq)
        ⟨asked.1, asked.2, fun _ eq => by cases eq⟩
  | remove hook =>
    have mem := held hook rfl
    obtain ⟨lives, -⟩ := h.hooks hook mem
    set s' := (TrapRequest.remove hook).start .int3 ok s with after
    have keeps : Keeps s s' := .goto (by rintro v ⟨⟩; rfl) rfl rfl rfl
    have settled (j : ℕ) : s'.Settled j := settled_of_none (by rintro v ⟨⟩; rfl)
    have split : s.hooks = hook ::ₘ s.hooks.erase hook := (Multiset.cons_erase mem).symm
    have nodup : ((hook ::ₘ s.hooks.erase hook).map (·.slot)).Nodup := split ▸ h.nodup
    rw [Multiset.map_cons, Multiset.nodup_cons] at nodup
    have alone : ∀ k ∈ s.hooks.erase hook, k.slot ≠ hook.slot :=
      fun k remains same => nodup.1 (same ▸ Multiset.mem_map_of_mem (·.slot) remains)
    refine ⟨⟨h.next_lt, ?_, nodup.2, ?_, ?_, h.verdicts⟩, fun q mem =>
      (others q mem).mono keeps ⟨rfl, rfl, rfl, fun _ eq => by cases eq⟩ (.same rfl rfl)⟩
    · intro k remains
      obtain ⟨alive, -⟩ := h.hooks k (Multiset.mem_of_mem_erase remains)
      exact ⟨⟨alive.slot, alive.nonnull, alive.target, alive.original⟩, settled k.slot⟩
    · intro a ours
      obtain ⟨nonnull, visible⟩ := h.patched a ours
      exact ⟨nonnull, visible.mono nonnull keeps⟩
    · rintro v ⟨⟩
      exact ⟨⟨lives.slot, lives.nonnull, lives.target, lives.original⟩, alone⟩
  | release =>
    exact good_next h others rfl (fun _ eq => by cases eq)
      fun j lt => absurd lt (Nat.not_lt_zero j)

end Holder

/-! ### The handlers -/

section Handlers

variable {ok : Bool} {s : TrapState} {rest : Multiset TrapCall}

/-- How many accesses a handler has left at most. -/
def TrapCall.work : TrapCall → ℕ
  | .scan _ true i => 2 * (Code.maxHooks - i) + 1
  | .matched _ true i => 2 * (Code.maxHooks - i)
  | .readByte _ => 2 * Code.maxHooks + 2
  | .ring _ k => 2 * Code.maxHooks + 3 + (retiredLen - k)
  | .scan _ false i => 2 * Code.maxHooks + 4 + retiredLen + 2 * (Code.maxHooks - i) + 1
  | .matched _ false i => 2 * Code.maxHooks + 4 + retiredLen + 2 * (Code.maxHooks - i)
  | _ => 0

/-- One access brings a handler closer to its end, and there it returns to the program. -/
def TrapCall.Resumes (s : TrapState) (q : TrapCall) (t : Trap) : TrapState × Option TrapCall → Prop
  | (s', none) => ∃ v ≠ .search, s' = s.settle t v
  | (s', some q') => s' = s ∧ q'.trap? = some t ∧ q'.work < q.work

/-- The same, with what the rest of the handler relies on. -/
def TrapCall.Advances (s : TrapState) (q : TrapCall) (t : Trap) : TrapState × Option TrapCall → Prop
  | (s', none) => ∃ v ≠ .search, s' = s.settle t v
  | (s', some q') => s' = s ∧ q'.Good s ∧ q'.trap? = some t ∧ q'.work < q.work

theorem TrapCall.Advances.resumes {q : TrapCall} {t : Trap} {after : TrapState × Option TrapCall}
    (h : q.Advances s t after) : q.Resumes s t after := by
  obtain ⟨s', next⟩ := after
  cases next with
  | none => exact h
  | some q' => exact ⟨h.1, h.2.2⟩

theorem TrapCall.access_advances {q : TrapCall} {t : Trap} (h : s.Good) (mine : q.Good s)
    (traps : q.trap? = some t) : q.Advances s t (q.access .int3 ok s) := by
  cases q with
  | scan t' second i =>
    obtain rfl : t' = t := Option.some.inj traps
    by_cases inside : i < TrapKind.int3.slots
    · simp only [access, if_pos inside]
      have below : i < Code.maxHooks := inside
      by_cases found : s.slotTarget i = t'.addr
      · rw [if_pos found]
        cases second with
        | false => exact ⟨rfl, ⟨mine, below⟩, rfl, by simp only [work]; omega⟩
        | true => exact ⟨rfl, ⟨mine, below⟩, rfl, by simp only [work]; omega⟩
      · rw [if_neg found]
        cases second with
        | false =>
          exact ⟨rfl, ⟨mine.1, mine.2.imp id (·.next (.inl found))⟩, rfl,
            by simp only [work]; omega⟩
        | true => exact ⟨rfl, ⟨mine.1, mine.2.next (.inl found)⟩, rfl, by simp only [work]; omega⟩
    · simp only [access, if_neg inside]
      cases second with
      | false =>
        refine ⟨rfl, ⟨mine.1, mine.2.resolve_right fun visible => inside visible.lt⟩, rfl, ?_⟩
        simp only [work]
        omega
      | true => exact absurd mine.2.lt inside
  | matched t' second i =>
    obtain rfl : t' = t := Option.some.inj traps
    by_cases live : s.slotDetour i ≠ 0
    · simp only [access, if_pos live]
      exact ⟨.detour (s.slotDetour i), (fun eq => by cases eq), rfl⟩
    · simp only [access, if_neg live]
      have dead : s.slotDetour i = 0 := not_not.mp live
      cases second with
      | false =>
        have below := mine.2
        exact ⟨rfl, ⟨mine.1.1, mine.1.2.imp id (·.next (.inr dead))⟩, rfl,
          by simp only [work]; omega⟩
      | true =>
        have below := mine.2
        exact ⟨rfl, ⟨mine.1.1, mine.1.2.next (.inr dead)⟩, rfl, by simp only [work]; omega⟩
  | ring t' k =>
    obtain rfl : t' = t := Option.some.inj traps
    have below : k < retiredLen := mine.2.lt
    have inside : k < TrapKind.int3.ringLen := below
    simp only [access, if_pos inside]
    by_cases found : s.retired k = t'.addr
    · rw [if_pos found]
      exact ⟨rfl, ⟨mine.1.nonnull, mine.1.byte⟩, rfl, by simp only [work]; omega⟩
    · rw [if_neg found]
      exact ⟨rfl, ⟨mine.1, mine.2.next found⟩, rfl, by simp only [work]; omega⟩
  | readByte t' =>
    obtain rfl : t' = t := Option.some.inj traps
    by_cases restored : s.mem t'.addr ≠ int3Opcode
    · simp only [access, if_pos restored]
      exact ⟨.rerun, (fun eq => by cases eq), rfl⟩
    · simp only [access, if_neg restored]
      -- an install publishes its slot before it writes the byte
      have visible := (h.patched _ (mine.2 (not_not.mp restored))).2
      exact ⟨rfl, ⟨mine.1, visible⟩, rfl, by simp only [work]; omega⟩
  | resync | live | relive => exact mine.elim
  | want | hold | forget => cases traps

theorem TrapState.Leaves.settle {hook : TrapHook} {t : Trap} {v : Verdict} (h : s.Leaves hook) :
    (s.settle t v).Leaves hook :=
  ⟨⟨h.slot, h.nonnull, h.target, h.original⟩, h.alone⟩

theorem Writer.Good.settle {w : Writer} {t : Trap} {v : Verdict} (h : w.Good s) :
    w.Good (s.settle t v) := by
  cases w with
  | retire hook => exact Leaves.settle h
  | restore hook => exact ⟨h.1.settle, h.2⟩
  | clearTarget hook => exact ⟨h.1.settle, h.2⟩
  | find | register | storeDetour | storeArmed | storeTarget | arm | undoTarget | undoDetour
  | disarm | clearDetour | releaseScan | inFlight | removeHandler | clearRing => exact h

theorem Trap.Tracked.settle {t t' : Trap} {v : Verdict} (h : t.Tracked s) :
    t.Tracked (s.settle t' v) :=
  ⟨h.nonnull, h.since, h.byte, h.kept⟩

theorem settle_good {t : Trap} {v : Verdict} (h : s.Good) (others : ∀ q ∈ rest, q.Good s)
    (ends : v ≠ .search) : (s.settle t v).Good ∧ ∀ q ∈ rest, q.Good (s.settle t v) := by
  refine ⟨⟨h.next_lt, ?_, h.nodup, h.patched, ?_, ?_⟩, fun q mem => ?_⟩
  · intro k mem
    obtain ⟨lives, settled⟩ := h.hooks k mem
    exact ⟨⟨lives.slot, lives.nonnull, lives.target, lives.original⟩, settled⟩
  · intro w at_
    exact (h.writer w at_).settle
  · intro a mem
    rcases List.mem_cons.mp mem with eq | mem
    · exact ends (congrArg Prod.snd eq).symm
    · exact h.verdicts a mem
  · refine (others q mem).map (.same rfl rfl) ?_ ?_ ?_
    · exact fun t _ i tracked found => ⟨tracked.settle, found⟩
    · exact fun t _ k tracked found => ⟨tracked.settle, found⟩
    · exact fun t _ _ i _ found => found

end Handlers

/-! ### Runs -/

theorem initial_good (mem : ℕ → UInt8) : (TrapState.initial mem).Good where
  next_lt := Nat.zero_lt_succ 1023
  hooks h mem := absurd mem (Multiset.notMem_zero h)
  nodup := Multiset.nodup_zero
  patched _ ours := nomatch (ours : false = true)
  writer w eq := nomatch (eq : none = some w)
  verdicts _ mem := nomatch mem

theorem enter_good {s : TrapState} {q : TrapCall} (h : s.Good)
    (begins : (trapMachine int3Traps).enter s q) : q.Good s := by
  cases q with
  | scan t again i =>
    cases again with
    | true => exact begins.elim
    | false =>
      cases i with
      | succ => exact begins.elim
      | zero =>
        obtain ⟨ours, nonnull, since⟩ := begins
        have visible := (h.patched _ ours).2
        refine ⟨⟨nonnull, ⟨since.le, ?_⟩, fun _ => ours, fun k at_ => ?_⟩, .inr visible⟩
        · rw [since]
          exact Nat.lt_add_of_pos_right (by decide)
        · -- the ring is cleared when no slot is in use, but this one is
          obtain ⟨j, -, lt, target, -⟩ := visible
          exact nonnull (target.symm.trans (h.writer _ at_ j lt))
  | want r =>
    cases r with
    | install t d => exact begins
    | remove | release => trivial
  | forget => exact begins.2.elim
  | matched | ring | readByte | resync | live | relive | hold => exact begins.elim

theorem TrapCall.step_good {s s' : TrapState} {q : TrapCall} {rest : Multiset TrapCall}
    {next : Option TrapCall} (h : s.Good) (mine : q.Good s) (others : ∀ q ∈ rest, q.Good s)
    (spared : Spared s q rest) (moves : (trapMachine int3Traps).program.step s q s' next) :
    s'.Good ∧ (∀ q', next = some q' → q'.Good s') ∧ ∀ q' ∈ rest, q'.Good s' := by
  obtain ⟨ok, answers, access⟩ := moves
  have access : q.access .int3 ok s = (s', next) := access
  have handler {t : Trap} (traps : q.trap? = some t) :
      s'.Good ∧ (∀ q', next = some q' → q'.Good s') ∧ ∀ q' ∈ rest, q'.Good s' := by
    have advances := access ▸ @TrapCall.access_advances ok s q t h mine traps
    cases next with
    | none =>
      obtain ⟨v, ends, rfl⟩ := advances
      obtain ⟨good, others⟩ := settle_good h others ends
      exact ⟨good, nofun, others⟩
    | some q' =>
      obtain ⟨rfl, good, -⟩ := advances
      exact ⟨h, fun _ eq => Option.some.inj eq ▸ good, others⟩
  cases q with
  | scan | matched | ring | readByte | resync | live | relive => exact handler rfl
  | want r =>
    have held : ∀ hook, r = .remove hook → hook ∈ s.hooks := by
      rintro hook rfl
      exact answers.2
    obtain ⟨rfl, rfl⟩ := Prod.mk.inj access
    obtain ⟨good, others⟩ := @TrapRequest.start_good ok s rest r h mine held others
    refine ⟨good, fun q' eq => ?_, others⟩
    split_ifs at eq
    cases eq
    trivial
  | hold =>
    obtain ⟨w, at_, answers⟩ := answers
    have at_ : s.writer = some w := at_
    simp only [TrapCall.access, at_] at access
    obtain ⟨rfl, rfl⟩ := Prod.mk.inj access
    obtain ⟨good, others⟩ := Writer.access_good h at_ others (spared rfl w at_) answers
    refine ⟨good, fun q' eq => ?_, others⟩
    split_ifs at eq
    cases eq
    trivial
  | forget => exact mine.elim

/-- No trap on the byte of a hook is passed on, in any run whose lock holder spares the handlers; and
each handler returns after at most `TrapCall.work` accesses of its own. -/
theorem traps_resume {mem : ℕ → UInt8} {s : TrapState} {calls : Multiset TrapCall}
    (run : Reachable (trapMachine int3Traps).program Spared (TrapState.initial mem) s calls) :
    (∀ a, (a, .search) ∉ s.verdicts) ∧
      ∀ q ∈ calls, ∀ t ∈ q.trap?, ∀ ok, q.Resumes s t (q.access .int3 ok s) := by
  obtain ⟨good, each⟩ := run.each (initial_good mem) (fun h begins => enter_good h begins)
    fun h mine others spared moves => TrapCall.step_good h mine others spared moves
  exact ⟨good.verdicts, fun q mem t traps ok =>
    (TrapCall.access_advances good (each q mem) traps).resumes⟩

/-! ### Removing a hook under a second scan -/

instance (a : ℕ) : DecidablePred (TrapCall.Rescans a)
  | .scan t true _ | .matched t true _ => inferInstanceAs (Decidable (t.addr = a))
  | .scan _ false _ | .matched _ false _ | .ring .. | .readByte .. | .resync .. | .live ..
  | .relive .. | .want .. | .hold | .forget .. => inferInstanceAs (Decidable False)

instance (s : TrapState) (rest : Multiset TrapCall) : DecidablePred (Writer.Spares s rest)
  | .arm t _ _ => inferInstanceAs (Decidable (s.mem t ≠ int3Opcode))
  | .clearTarget h => inferInstanceAs (Decidable (∀ q ∈ rest, ¬ q.Rescans h.target))
  | .retire _ => inferInstanceAs
      (Decidable (∀ q ∈ rest, ∀ t ∈ q.trap?, s.retirements + 1 < t.since + retiredLen))
  | .removeHandler => inferInstanceAs
      (Decidable (∀ q ∈ rest, ∀ t ∈ q.trap?, ∀ k < retiredLen, s.retired k ≠ t.addr))
  | .find .. | .register .. | .storeDetour .. | .storeArmed .. | .storeTarget .. | .undoTarget _
  | .undoDetour _ | .disarm _ | .restore _ | .clearDetour _ | .releaseScan _ | .inFlight
  | .clearRing _ => inferInstanceAs (Decidable True)

instance (s : TrapState) (p : TrapCall) (rest : Multiset TrapCall) : Decidable (Spared s p rest) :=
  inferInstanceAs (Decidable (p = .hold → ∀ w ∈ s.writer, w.Spares s rest))

instance (s : TrapState) (a : ℕ) : Decidable (int3Traps.traps s a) :=
  inferInstanceAs (Decidable (s.patched a = true))

instance : Decidable int3Traps.forgets := inferInstanceAs (Decidable False)

instance (w : Writer) (ok : Bool) : Decidable (int3Traps.answers w ok) :=
  match w with
  | .restore _ => inferInstanceAs (Decidable (ok = true))
  | .find .. | .register .. | .storeDetour .. | .storeArmed .. | .storeTarget .. | .arm ..
  | .undoTarget _ | .undoDetour _ | .disarm _ | .retire _ | .clearTarget _ | .clearDetour _
  | .releaseScan _ | .inFlight | .removeHandler | .clearRing _ => inferInstanceAs (Decidable True)

/-- A handler misses the removed hook, finds it in the ring, reads the breakpoint of a second hook on
the address, and misses that one too. -/
theorem rescan_passes_on :
    ∃ s calls, Reachable (trapMachine int3Traps).program (fun _ _ _ => True)
        (TrapState.initial fun _ => 0x90) s calls ∧
      s.retirements < retiredLen ∧ (0x1000, .search) ∈ s.verdicts := by
  have answers (w : Writer) : int3Traps.answers w true := by cases w <;> trivial
  have fresh (j : ℕ) : (TrapState.initial fun _ => 0x90).slotTarget j = 0 := rfl
  have hooked := reachable_install (t := 0x1000) (d := 0x3000) answers .start rfl rfl (by decide)
    fresh
  have only := installed_empty (t := 0x1000) (d := 0x3000) fresh
  have trapped := hooked.enter (TrapCall.scan sampleTrap false 0) ⟨rfl, by decide, rfl⟩
  have unhooked := reachable_remove (h := ⟨0x1000, 0x3000, 0, 0x90⟩) answers trapped rfl trivial
    rfl (by decide) rfl only
  have cleared := removed_empty (h := ⟨0x1000, 0x3000, 0, 0x90⟩) only
  have elsewhere {s : TrapState} (empty : ∀ j, s.slotTarget j = 0) (j : ℕ) :
      s.slotTarget j ≠ sampleTrap.addr := by
    rw [empty j]
    decide
  have missed := reachable_scan unhooked (Nat.zero_le _) fun j _ => elsewhere cleared j
  have asks := missed.step _ 0 rfl trivial ⟨true, trivial, rfl⟩
  have retired := asks.step _ 0 rfl trivial ⟨true, trivial, rfl⟩
  have rehooked := reachable_install (t := 0x1000) (d := 0x3000) answers retired rfl rfl (by decide)
    cleared
  have read := rehooked.step _ 0 rfl trivial ⟨true, trivial, rfl⟩
  have again := reachable_remove (h := ⟨0x1000, 0x3000, 0, 0x90⟩) answers read rfl trivial
    rfl (by decide) rfl (installed_empty cleared)
  have gone := removed_empty (h := ⟨0x1000, 0x3000, 0, 0x90⟩)
    (installed_empty (t := 0x1000) (d := 0x3000) cleared)
  rw [left_some_add] at again
  have lost := reachable_scan again (Nat.zero_le _) fun j _ => elsewhere gone j
  have passed := lost.step _ 0 rfl trivial ⟨true, trivial, rfl⟩
  exact ⟨_, _, passed, by decide +kernel⟩

/-- A hook is installed, a thread traps on it, and the hook is removed while the handler scans. -/
def resumeMoves : List (Pool.Move TrapCall Bool) :=
  [.enter (.want (.install 0x1000 0x3000)), .step 0 true] ++
    List.replicate (TrapKind.int3.slots + 5) (.step 0 true) ++
    [.enter (.scan sampleTrap false 0), .enter (.want (.remove ⟨0x1000, 0x3000, 0, 0x90⟩)),
      .step 0 true, .step 0 true, .step 0 true, .step 1 true, .step 0 true, .step 0 true]

theorem resumes_during_removal :
    let c := (trapMachine int3Traps).run (TrapState.initial fun _ => 0x90, []) resumeMoves
    (0x1000, .detour 0x3000) ∈ c.1.verdicts ∧ ∀ a, (a, .search) ∉ c.1.verdicts := by
  have admits : (trapMachine int3Traps).AdmitsAll Spared (TrapState.initial fun _ => 0x90, [])
      resumeMoves := by decide +kernel
  refine ⟨by decide +kernel, (traps_resume (Machine.reachable_schedule admits)).1⟩

end NeoHook
