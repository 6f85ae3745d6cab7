import NeoHook.JumpCodec
import NeoHook.NearbyAlloc

/-!
# Export entries for detours

An export entry is an offset of 32 bits from the module base.  `resolve_detour_rva` of `eat.rs`
encodes a detour as such an offset, on x86_64 through a jump stub within 4 GiB above the base
when the detour itself is out of range; `alloc_export_stub` of `alloc.rs` finds room for the stub.
-/

namespace NeoHook

open ByteMap TrampolineAlloc

def u32Max : ℕ := 2 ^ 32 - 1

/-! ### Room for a stub -/

namespace TrampolineAlloc

section ExportStub

variable (si : SystemInfo) (query : ℕ → ℕ → Option MemoryInfo) (virtualAlloc : ℕ → ℕ → Option ℕ)
  (base size : ℕ)

/-- Where a region is tried: the first aligned address from the scan's position and the base on,
if the stub fits there. -/
def exportCandidate (i : MemoryInfo) (current : ℕ) : Option ℕ :=
  if i.free ∧ size ≤ i.regionSize then
    let candidate := alignUp (max (max i.baseAddress current) base) si.allocationGranularity
    if base ≤ candidate ∧ saturatingAdd candidate size ≤ i.regionEnd ∧
        saturatingAdd candidate size - base ≤ u32Max then some candidate
    else none
  else none

/-- The scan of `alloc_export_stub`, up to `maxAddr`. -/
def exportScan (maxAddr n current : ℕ) : Option ℕ :=
  if current ≤ maxAddr then
    match query n current with
    | none => none
    | some i =>
      match (exportCandidate si base size i current).bind (virtualAlloc n) with
      | some allocated => some allocated
      | none =>
        if i.regionEnd ≤ current then none else exportScan maxAddr (n + 1) i.regionEnd
  else none
termination_by maxAddr + 1 - current

def allocExportStub : Option Trampoline :=
  if size = 0 then none
  else if 2 ^ 64 ≤ base + u32Max then none
  else (exportScan si query virtualAlloc base size (base + u32Max - size) 0 base).map
    fun a => ⟨a, size⟩

end ExportStub

/-- What the code relies on from the OS: regions end below the end of the address space, and an
allocation at a requested aligned address is made there or not at all. -/
structure ExportOsSound (si : SystemInfo) (query : ℕ → ℕ → Option MemoryInfo)
    (virtualAlloc : ℕ → ℕ → Option ℕ) : Prop where
  granularity : ∃ k ≤ 64, si.allocationGranularity = 2 ^ k
  regions : ∀ {n x i}, query n x = some i → i.baseAddress + i.regionSize < usizeMax
  requested : ∀ {n c a}, c ≠ 0 → si.allocationGranularity ∣ c → virtualAlloc n c = some a → a = c

section ExportStub

variable {si : SystemInfo} {query : ℕ → ℕ → Option MemoryInfo} {virtualAlloc : ℕ → ℕ → Option ℕ}
  {base size : ℕ}

/-- A rounded address is a multiple even where the sum wraps. -/
theorem dvd_alignUp {k : ℕ} (small : k ≤ 64) (addr : ℕ) : 2 ^ k ∣ alignUp addr (2 ^ k) :=
  Align.dvd_down small (Nat.mod_lt _ (by decide))

theorem exportScan_spec (sound : ExportOsSound si query virtualAlloc) (module_ : base ≠ 0)
    {maxAddr n current a : ℕ}
    (h : exportScan si query virtualAlloc base size maxAddr n current = some a) :
    base ≤ a ∧ a + size ≤ base + u32Max := by
  induction n, current using exportScan.induct si query virtualAlloc base size maxAddr with
  | case1 n current inside none =>
    rw [exportScan, if_pos inside] at h
    simp only [none, reduceCtorEq] at h
  | case2 n current inside i found allocated placed =>
    rw [exportScan, if_pos inside] at h
    simp only [found, placed, Option.some.injEq] at h
    subst h
    obtain ⟨candidate, chosen, placed⟩ := Option.bind_eq_some_iff.1 placed
    simp only [exportCandidate] at chosen
    split_ifs at chosen with large fits
    obtain rfl := Option.some.inj chosen
    obtain ⟨above, inside, short⟩ := fits
    obtain ⟨k, small, eq⟩ := sound.granularity
    rw [sound.requested (by omega) (eq ▸ dvd_alignUp small _) placed]
    have region := sound.regions found
    unfold MemoryInfo.regionEnd saturatingAdd at inside
    unfold saturatingAdd at short
    omega
  | case3 n current inside i found missed stuck =>
    rw [exportScan, if_pos inside] at h
    simp only [found, missed, if_pos stuck, reduceCtorEq] at h
  | case4 n current inside i found missed moves ih =>
    rw [exportScan, if_pos inside] at h
    simp only [found, missed, if_neg moves] at h
    exact ih h
  | case5 n current outside =>
    rw [exportScan, if_neg outside] at h
    cases h

/-- A stub lies between the base and the last address an entry can name. -/
theorem allocExportStub_spec (sound : ExportOsSound si query virtualAlloc) (module_ : base ≠ 0)
    {stub : Trampoline} (h : allocExportStub si query virtualAlloc base size = some stub) :
    stub.size = size ∧ base ≤ stub.ptr ∧ stub.ptr + stub.size ≤ base + u32Max := by
  unfold allocExportStub at h
  split_ifs at h
  obtain ⟨a, found, rfl⟩ := Option.map_eq_some_iff.1 h
  exact ⟨rfl, exportScan_spec sound module_ found⟩

end ExportStub

end TrampolineAlloc

/-! ### The entry for a detour -/

namespace EatHook

/-- `resolve_detour_rva` on x86, as a wrapped 32-bit difference. -/
def resolveDetourRvaX86 (base detour : ℕ) : ℕ := (detour + 2 ^ 32 - base) % 2 ^ 32

/-- `resolve_detour_rva` on x86_64: the entry, the stub it needs, and memory with the stub. -/
def resolveDetourRva (si : SystemInfo) (query : ℕ → ℕ → Option MemoryInfo)
    (virtualAlloc : ℕ → ℕ → Option ℕ) (m : ℕ → UInt8) (base detour : ℕ) :
    Except EatHookError (ℕ × Option Trampoline × (ℕ → UInt8)) :=
  if base ≤ detour ∧ detour - base ≤ u32Max then .ok (detour - base, none, m)
  else match allocExportStub si query virtualAlloc base 14 with
    | none => .error .detourUnreachable
    | some stub =>
      .ok ((stub.ptr - base) % 2 ^ 32, some stub, writeAbsJumpStub m stub.ptr detour)

/-- A stub placed for an entry: it lies within 4 GiB above the base, the entry names it, and its
jump leads to the detour wherever it is mapped. -/
structure StubFor (m : ℕ → UInt8) (base detour rva : ℕ) (stub : Trampoline) : Prop where
  entry : (base + rva) % 2 ^ 64 = stub.ptr
  low : base ≤ stub.ptr
  high : stub.ptr + stub.size ≤ base + u32Max
  bytes : read m stub.ptr 14 = [0xFF, 0x25, 0, 0, 0, 0] ++ leBytes 8 detour
  leads : ∀ map : ℕ → Option Mbi, Mapped .x86_64 map stub.ptr stub.size →
    Arch.x86_64.detourCodeFromPointerOnce (isReadableRange .x86_64 map) m stub.ptr = some detour

theorem resolveDetourRvaX86_spec {base detour : ℕ} (base_word : base < 2 ^ 32)
    (detour_word : detour < 2 ^ 32) :
    resolveDetourRvaX86 base detour < 2 ^ 32 ∧
      (base + resolveDetourRvaX86 base detour) % 2 ^ 32 = detour := by
  unfold resolveDetourRvaX86
  omega

theorem resolveDetourRva_spec {si : SystemInfo} {query : ℕ → ℕ → Option MemoryInfo}
    {virtualAlloc : ℕ → ℕ → Option ℕ} (sound : ExportOsSound si query virtualAlloc)
    {m m' : ℕ → UInt8} {base detour rva : ℕ} {stub : Option Trampoline} (module_ : base ≠ 0)
    (detour_word : detour < 2 ^ 64)
    (h : resolveDetourRva si query virtualAlloc m base detour = .ok (rva, stub, m')) :
    rva < 2 ^ 32 ∧ (stub = none ∧ (base + rva) % 2 ^ 64 = detour ∨
      ∃ t, stub = some t ∧ StubFor m' base detour rva t) := by
  unfold resolveDetourRva at h
  split_ifs at h with near
  · simp only [Except.ok.injEq, Prod.mk.injEq] at h
    obtain ⟨rfl, rfl, rfl⟩ := h
    unfold u32Max at near
    exact ⟨by omega, .inl ⟨rfl, by omega⟩⟩
  · cases found : allocExportStub si query virtualAlloc base 14 with
    | none => simp only [found, reduceCtorEq] at h
    | some t =>
      simp only [found, Except.ok.injEq, Prod.mk.injEq] at h
      obtain ⟨rfl, rfl, rfl⟩ := h
      obtain ⟨size, low, high⟩ := allocExportStub_spec sound module_ found
      have short : t.ptr - base < 2 ^ 32 := by
        unfold u32Max at high
        omega
      have space : base + u32Max < 2 ^ 64 := by
        by_contra wraps
        rw [allocExportStub, if_neg (by decide), if_pos (by omega)] at found
        cases found
      refine ⟨Nat.mod_lt _ (by decide), .inr ⟨t, rfl, ?_, low, high, ?_, ?_⟩⟩
      · rw [Nat.mod_eq_of_lt short, Nat.add_sub_cancel' low]
        exact Nat.mod_eq_of_lt (by omega)
      · exact read_write_slice m t.ptr ([0xFF, 0x25, 0, 0, 0, 0] ++ leBytes 8 detour) (i := 0)
          (k := 14) (by simp)
      · intro map mapped
        rw [size] at mapped
        exact gateway_followed .x86_64 detour_word
          (by rwa [show (Arch.x86_64.managedGatewayStub t.ptr detour).length = 14 from
            length_managedGatewayStub detour]) m

/-- The entry for a detour, resolved in the width of an address, is the detour itself or a stub
within 4 GiB above the base whose jump leads to the detour; and no stub is allocated whose end is
out of reach of an entry. -/
theorem export_entries_reach_detour {si : SystemInfo} {query : ℕ → ℕ → Option MemoryInfo}
    {virtualAlloc : ℕ → ℕ → Option ℕ} (sound : ExportOsSound si query virtualAlloc) :
    (∀ base detour, base < 2 ^ 32 → detour < 2 ^ 32 →
      resolveDetourRvaX86 base detour < 2 ^ 32 ∧
        (base + resolveDetourRvaX86 base detour) % 2 ^ 32 = detour) ∧
    (∀ base size stub, base ≠ 0 → allocExportStub si query virtualAlloc base size = some stub →
      base ≤ stub.ptr ∧ stub.ptr + size ≤ base + u32Max) ∧
    ∀ m m' base detour rva stub, base ≠ 0 → detour < 2 ^ 64 →
      resolveDetourRva si query virtualAlloc m base detour = .ok (rva, stub, m') →
      rva < 2 ^ 32 ∧ (stub = none ∧ (base + rva) % 2 ^ 64 = detour ∨
        ∃ t, stub = some t ∧ StubFor m' base detour rva t) := by
  refine ⟨?_, ?_, ?_⟩
  · intro base detour base_word detour_word
    exact resolveDetourRvaX86_spec base_word detour_word
  · intro base size stub module_ found
    obtain ⟨rfl, low, high⟩ := allocExportStub_spec sound module_ found
    exact ⟨low, high⟩
  · intro m m' base detour rva stub module_ detour_word resolved
    exact resolveDetourRva_spec sound module_ detour_word resolved

theorem sampleExportOs_sound :
    ExportOsSound sampleSystem (fun _ => sampleMap) (fun _ c => some c) where
  granularity := ⟨16, by decide, rfl⟩
  regions := by
    intro n x i found
    unfold sampleMap at found
    split_ifs at found <;> obtain rfl := Option.some.inj found <;> decide
  requested := by
    intro n c a _ _ placed
    exact (Option.some.inj placed).symm

theorem sampleExportScan (n : ℕ) :
    exportScan sampleSystem (fun _ => sampleMap) (fun _ c => some c) 0x40000 14
      (0x40000 + u32Max - 14) n 0x40000 = some 0x50000 := by
  rw [exportScan, if_pos (by decide)]
  show exportScan sampleSystem (fun _ => sampleMap) (fun _ c => some c) 0x40000 14
      (0x40000 + u32Max - 14) (n + 1) 0x50000 = some 0x50000
  rw [exportScan, if_pos (by decide)]
  rfl

/-- A detour far above the module gets a stub right behind it. -/
theorem sampleExport_reaches :
    StubFor (writeAbsJumpStub (fun _ => 0) 0x50000 0x7FF600000000) 0x40000 0x7FF600000000 0x10000
      ⟨0x50000, 14⟩ := by
  have resolved : resolveDetourRva sampleSystem (fun _ => sampleMap) (fun _ c => some c)
      (fun _ => 0) 0x40000 0x7FF600000000 =
        .ok (0x10000, some ⟨0x50000, 14⟩, writeAbsJumpStub (fun _ => 0) 0x50000 0x7FF600000000) := by
    unfold resolveDetourRva allocExportStub
    rw [if_neg (by decide), if_neg (by decide), if_neg (by decide), sampleExportScan 0]
    rfl
  obtain ⟨-, reaches⟩ := (export_entries_reach_detour sampleExportOs_sound).2.2 _ _ _ _ _ _
    (by decide) (by decide) resolved
  rcases reaches with ⟨none, -⟩ | ⟨t, eq, reaches⟩
  · cases none
  · rwa [← Option.some.inj eq] at reaches

end EatHook

end NeoHook
