import NeoHook.Disasm
import NeoHook.DiskReads
import NeoHook.Int3
import NeoHook.JumpChains
import NeoHook.RegionScan

/-!
# Detecting inline hooks

`inline_hook` of `detect.rs`, as built for x86_64: the first instructions of a function are compared
with those in the module's file, and the first one that differs is classified.  The decoder and the
answers about modules come from outside.

What is found stands in the first sixteen bytes, where memory differs from the file; code that is as
the loader maps it is not reported; and a jump over the first instruction is reported with the place
it leads to.
-/

namespace NeoHook

open ByteMap Disk

namespace Detect

/-! ### Instructions -/

/-- The mnemonics that are told apart. -/
inductive Mnemonic where
  | int3 | jmp | push | mov | other
  deriving DecidableEq

inductive OpKind where
  | register | memory | nearBranch | immediate8to32 | immediate32 | immediate64 | immediate32to64
  | other
  deriving DecidableEq

/-- What the detection reads of a decoded instruction; an invalid one is `none`. -/
structure Instruction where
  len : ℕ
  len_pos : 0 < len
  mnemonic : Mnemonic
  flow : FlowControl
  op0Kind : OpKind
  op1Kind : OpKind
  op0Register : ℕ
  op1Register : ℕ
  /-- `immediate(0)` and `immediate(1)`. -/
  immediate0 : ℕ
  immediate1 : ℕ
  nearBranchTarget : ℕ

/-- The decoder and the system. -/
structure Detector where
  /-- The instruction at the head of the bytes, which lie at the given address. -/
  decode : List UInt8 → ℕ → Option Instruction
  /-- `VirtualQuery`. -/
  query : ℕ → Option RegionScan.Information
  moduleOf : ℕ → Option ℕ
  moduleNameOf : ℕ → Option String
  isSystemModule : ℕ → Bool

def compareBytes : ℕ := 16

/-- `READABLE` of `readable_bytes_from`. -/
def readableFlags : UInt32 := 0x04 ||| 0x02 ||| 0x08 ||| 0x20 ||| 0x40 ||| 0x80

namespace Detector

variable (D : Detector) (mem : ℕ → UInt8)

/-- `readable_bytes_from`. -/
def readableBytesFrom (address : ℕ) : ℕ :=
  match D.query address with
  | none => 0
  | some mbi =>
    if mbi.state ≠ memCommit ∨ mbi.protect &&& readableFlags = 0 ∨
        mbi.protect &&& (pageGuard ||| pageNoaccess) ≠ 0 then 0
    else saturatingAdd mbi.baseAddress mbi.regionSize - address

/-- The answer of `VirtualQuery` as `is_readable_range` reads it, which does not read the allocation
base. -/
def readableQuery (address : ℕ) : Option Mbi :=
  (D.query address).map fun mbi =>
    { baseAddress := mbi.baseAddress, regionSize := mbi.regionSize, allocationBase := 0
      commit := mbi.state == memCommit
      guarded := mbi.protect &&& (pageNoaccess ||| pageGuard) != 0 }

/-- `detour_code_from_pointer`. -/
def resolve (pointer : ℕ) : ℕ := Arch.x86_64.detourCodeFromPointer D.readableQuery mem pointer

/-- `decode_live`. -/
def decodeLive (at_ : ℕ) : Option Instruction :=
  if D.readableBytesFrom at_ = 0 then none
  else D.decode (read mem at_ (min (D.readableBytesFrom at_) 15)) at_

/-! ### Classifying a change -/

def isPushImm (i : Instruction) : Bool :=
  match i.op0Kind with
  | .immediate8to32 | .immediate32 | .immediate32to64 => true
  | _ => false

def isImmediate : OpKind → Bool
  | .immediate32 | .immediate64 | .immediate32to64 => true
  | _ => false

/-- The kind of a changed instruction and where it leads, before jump stubs behind it are followed;
`live` are the bytes from it on. -/
def changeOf (at_ : ℕ) (live : List UInt8) : DetectedHookKind × Option ℕ :=
  match D.decodeLive mem at_ with
  | none => (.modifiedCode, none)
  | some i =>
    match i.mnemonic with
    | .int3 => (.breakpoint, none)
    | .jmp => (.inlineJump, some (D.resolve mem at_))
    | .push =>
      if isPushImm i ∧ live[i.len]? = some 0xC3 then (.inlineJump, some i.immediate0)
      else (.modifiedCode, none)
    | .mov =>
      if isImmediate i.op1Kind ∧ i.op0Kind = .register then
        match D.decodeLive mem (at_ + i.len) with
        | some jmp =>
          if jmp.mnemonic = .jmp ∧ jmp.op0Kind = .register ∧ jmp.op0Register = i.op0Register then
            (.inlineJump, some i.immediate1)
          else (.modifiedCode, none)
        | none => (.modifiedCode, none)
      else (.modifiedCode, none)
    | .other => (.modifiedCode, none)

def classify (at_ : ℕ) (live : List UInt8) : DetectedHook :=
  let change := D.changeOf mem at_ live
  match change.2.filter fun d => d ≠ 0 with
  | none => ⟨change.1, at_, none, none, none⟩
  | some destination =>
    ⟨change.1, at_, none, some (D.resolve mem destination),
      D.moduleNameOf (D.resolve mem destination)⟩

/-- `is_self_patch`: a jump inside a system module. -/
def isSelfPatch (hook : DetectedHook) : Bool :=
  match D.moduleOf hook.address with
  | none => false
  | some module =>
    hook.kind == .inlineJump &&
      (match hook.destination with
        | some d => D.moduleOf d == some module
        | none => false) &&
      D.isSystemModule module

/-! ### The comparison -/

/-- An indirect call or jump through memory, the form of a call through an import slot. -/
def importForm (i : Instruction) : Bool :=
  match i.flow with
  | .indirectCall | .indirectBranch => i.op0Kind == .memory
  | _ => false

/-- `is_import_call_rewrite`. -/
def isImportCallRewrite (diskInstr : Instruction) (at_ : ℕ) : Bool :=
  importForm diskInstr &&
    match D.decodeLive mem at_ with
    | none => false
    | some live =>
      match live.flow with
      | .call | .unconditionalBranch => live.nearBranchTarget != 0
      | _ => false

/-- The comparison stops behind the instruction. -/
def endsComparison (i : Instruction) : Bool :=
  match i.flow with
  | .return_ | .unconditionalBranch | .indirectBranch => true
  | _ => false

/-- The loop of `inline_hook`, from `offset` on. -/
def compareFrom (func : ℕ) (diskCode liveCode : List UInt8) (offset : ℕ) : Option DetectedHook :=
  if offset < compareBytes ∧ offset < diskCode.length then
    match D.decode (diskCode.drop offset) (func + offset) with
    | none => none
    | some i =>
      if liveCode.length < offset + i.len then none
      else if (liveCode.drop offset).take i.len ≠ (diskCode.drop offset).take i.len then
        if D.isImportCallRewrite mem i (func + offset) then
          compareFrom func diskCode liveCode (offset + i.len)
        else
          let hook := D.classify mem (func + offset) (liveCode.drop offset)
          if D.isSelfPatch hook then none else some hook
      else if endsComparison i then none
      else compareFrom func diskCode liveCode (offset + i.len)
  else none
termination_by compareBytes - offset
decreasing_by
  all_goals
    have := i.len_pos
    omega

def inlineHook (func : ℕ) (disk : DiskImage) (base : ℕ) : Sliced DetectedHook :=
  if func < base then Sliced.ofOption none
  else do
    let diskCode ← disk.read (func - base) (compareBytes + 32) base
    let readable := D.readableBytesFrom func
    if readable = 0 then Sliced.ofOption none
    else
      let liveCode := read mem func (min diskCode.length readable)
      Sliced.ofOption (D.compareFrom mem func diskCode liveCode 0)

/-! ### What the comparison finds -/

/-- The comparison gets to the offset: the instructions of the file in front of it are in memory and
none of them ends the function, or the loader has rewritten them. -/
inductive Reaches (func : ℕ) (diskCode liveCode : List UInt8) : ℕ → Prop
  | start : Reaches func diskCode liveCode 0
  | next {o : ℕ} {i : Instruction} (there : Reaches func diskCode liveCode o)
      (inside : o < compareBytes ∧ o < diskCode.length)
      (decoded : D.decode (diskCode.drop o) (func + o) = some i)
      (whole : o + i.len ≤ liveCode.length)
      (passed : if (liveCode.drop o).take i.len = (diskCode.drop o).take i.len then
        endsComparison i = false else D.isImportCallRewrite mem i (func + o) = true) :
      Reaches func diskCode liveCode (o + i.len)

/-- The instruction at the offset has changed: the comparison gets to it, memory differs from the
file there, and the loader has not rewritten it. -/
structure Changed (func : ℕ) (diskCode liveCode : List UInt8) (o : ℕ) : Prop where
  reached : D.Reaches mem func diskCode liveCode o
  inside : o < compareBytes ∧ o < diskCode.length
  differs : ∃ i, D.decode (diskCode.drop o) (func + o) = some i ∧ o + i.len ≤ liveCode.length ∧
    (liveCode.drop o).take i.len ≠ (diskCode.drop o).take i.len ∧
    D.isImportCallRewrite mem i (func + o) = false

variable {D mem} {func : ℕ} {diskCode liveCode : List UInt8}

/-- What the comparison passes over does not matter. -/
theorem Reaches.compareFrom_eq {o : ℕ} (there : D.Reaches mem func diskCode liveCode o) :
    D.compareFrom mem func diskCode liveCode 0 = D.compareFrom mem func diskCode liveCode o := by
  induction there with
  | start => rfl
  | next there inside decoded whole passed ih =>
    rw [ih, compareFrom, if_pos inside, decoded]
    simp only
    rw [if_neg (by omega)]
    split_ifs at passed with same
    · rw [if_neg (not_not_intro same), passed, if_neg Bool.false_ne_true]
    · rw [if_pos same, if_pos passed]

/-- A changed instruction decides what is found. -/
theorem Changed.classified {o : ℕ} (changed : D.Changed mem func diskCode liveCode o) :
    D.compareFrom mem func diskCode liveCode 0 =
      if D.isSelfPatch (D.classify mem (func + o) (liveCode.drop o)) then none
      else some (D.classify mem (func + o) (liveCode.drop o)) := by
  obtain ⟨there, inside, i, decoded, whole, differs, kept⟩ := changed
  rw [there.compareFrom_eq, compareFrom, if_pos inside, decoded]
  simp only
  rw [if_neg (by omega), if_pos differs, kept, if_neg Bool.false_ne_true]

/-- A hook is found just where an instruction has changed. -/
theorem compareFrom_eq_some {hook : DetectedHook} :
    D.compareFrom mem func diskCode liveCode 0 = some hook ↔
      ∃ o, D.Changed mem func diskCode liveCode o ∧
        hook = D.classify mem (func + o) (liveCode.drop o) ∧ D.isSelfPatch hook = false := by
  constructor
  · have search : ∀ o, D.Reaches mem func diskCode liveCode o →
        D.compareFrom mem func diskCode liveCode o = some hook →
        ∃ o, D.Changed mem func diskCode liveCode o ∧
          hook = D.classify mem (func + o) (liveCode.drop o) ∧ D.isSelfPatch hook = false := by
      intro o
      fun_induction compareFrom D mem func diskCode liveCode o with
      | case1 o inside undecoded => exact fun _ found => nomatch found
      | case2 o inside i decoded short => exact fun _ found => nomatch found
      | case3 o inside i decoded short differs rewritten ih =>
        intro there found
        refine ih (there.next inside decoded (by omega) ?_) found
        rw [if_neg differs]
        exact rewritten
      | case4 o inside i decoded short differs kept hook' self => exact fun _ found => nomatch found
      | case5 o inside i decoded short differs kept hook' other =>
        intro there found
        obtain rfl := Option.some.inj found
        refine ⟨o, ⟨there, inside, i, decoded, by omega, differs, ?_⟩, rfl, ?_⟩
        · exact Bool.eq_false_iff.mpr kept
        · exact Bool.eq_false_iff.mpr other
      | case6 o inside i decoded short same ends => exact fun _ found => nomatch found
      | case7 o inside i decoded short same more ih =>
        intro there found
        refine ih (there.next inside decoded (by omega) ?_) found
        rw [if_pos (not_not.mp same)]
        exact Bool.eq_false_iff.mpr more
      | case8 o outside => exact fun _ found => nomatch found
    exact search 0 .start
  · rintro ⟨o, changed, rfl, other⟩
    rw [changed.classified, other, if_neg Bool.false_ne_true]

/-- Code that is in memory as it is in the file has not changed. -/
theorem compareFrom_unchanged (same : liveCode <+: diskCode) :
    D.compareFrom mem func diskCode liveCode 0 = none := by
  rw [Option.eq_none_iff_forall_ne_some]
  intro hook found
  obtain ⟨o, ⟨-, -, i, -, whole, differs, -⟩, -⟩ := compareFrom_eq_some.mp found
  obtain ⟨rest, rfl⟩ := same
  apply differs
  rw [List.drop_append_of_le_length (by omega), List.take_append_of_le_length]
  rw [List.length_drop]
  omega

/-! ### Functions of a module -/

/-- The first bytes of the function in the file, as the loader maps them at `base`. -/
def fileCode (image : DiskImage) (base func : ℕ) (s : Section) : List UInt8 :=
  read (image.loaded base) (func - base) (min (compareBytes + 32) (s.left (func - base)))

/-- The same bytes in memory, as far as they can be read. -/
def memoryCode (D : Detector) (mem : ℕ → UInt8) (base func : ℕ) (s : Section) : List UInt8 :=
  read mem func (min (min (compareBytes + 32) (s.left (func - base))) (D.readableBytesFrom func))

theorem inlineHook_eq {image : DiskImage} {base : ℕ} {s : Section} (tidy : image.Tidy)
    (above : base ≤ func) (found : image.sectionOf (func - base) = some s)
    (readable : D.readableBytesFrom func ≠ 0) :
    (D.inlineHook mem func image base).run =
      .ok (D.compareFrom mem func (fileCode image base func s) (memoryCode D mem base func s) 0) := by
  have window : (image.read (func - base) (compareBytes + 32) base).run =
      .ok (some (fileCode image base func s)) := by
    rw [read_eq tidy found, readRelocated_eq tidy found]
    rfl
  unfold inlineHook
  rw [if_neg (by omega), Sliced.run_bind_of_found window]
  change (if D.readableBytesFrom func = 0 then _ else _ : Sliced DetectedHook).run = _
  rw [if_neg readable]
  unfold fileCode
  rw [length_read]
  rfl

/-- What `inline_hook` reports of a function in a section of a tidy file: the first instruction that
has changed, classified, unless a system module patched itself. -/
theorem inlineHook_exact {image : DiskImage} {base : ℕ} {s : Section} (tidy : image.Tidy)
    (above : base ≤ func) (found : image.sectionOf (func - base) = some s)
    (readable : D.readableBytesFrom func ≠ 0) (hook : DetectedHook) :
    (D.inlineHook mem func image base).run = .ok (some hook) ↔
      ∃ o < compareBytes,
        D.Changed mem func (fileCode image base func s) (memoryCode D mem base func s) o ∧
        hook = D.classify mem (func + o) ((memoryCode D mem base func s).drop o) ∧
        D.isSelfPatch hook = false := by
  rw [inlineHook_eq tidy above found readable]
  constructor
  · intro reported
    obtain ⟨o, changed, verdict⟩ := compareFrom_eq_some.mp (Except.ok.inj reported)
    exact ⟨o, changed.inside.1, changed, verdict⟩
  · rintro ⟨o, -, changed, verdict⟩
    rw [compareFrom_eq_some.mpr ⟨o, changed, verdict⟩]

/-! ### Jumps laid over a function -/

/-- Following jump stubs from `a` ends at `d`, soon enough to follow one more jump in front. -/
def Leads (D : Detector) (mem : ℕ → UInt8) (a d : ℕ) : Prop :=
  ∃ (x : ℕ → ℕ) (k : ℕ), x 0 = a ∧ x k = d ∧ k + 1 < maxJumpFollows ∧
    Chase.Path (Arch.x86_64.stubTarget D.readableQuery mem) x k ∧
    Arch.x86_64.stubTarget D.readableQuery mem d = none

/-- The bytes of the jump instruction itself. -/
def opLen : JumpType → ℕ
  | .relative5 => 5
  | .absolute14 => 6

theorem opLen_le_size (j : JumpType) : opLen j ≤ j.size := by
  cases j <;> decide

theorem opLen_le (j : JumpType) : opLen j ≤ 6 := by
  cases j <;> decide

/-- What a decoder is documented to do: it decodes an instruction of fifteen bytes at most from its
own bytes alone, and it knows the jumps and the breakpoint that are written over functions. -/
structure Decodes (D : Detector) : Prop where
  short : ∀ {bs a i}, D.decode bs a = some i → i.len ≤ 15 ∧ i.len ≤ bs.length
  own : ∀ {bs bs' a i}, D.decode bs a = some i → bs'.take i.len = bs.take i.len →
    D.decode bs' a = some i
  near : ∀ rel a, rel.length = 4 → ∃ i, D.decode (0xE9 :: rel) a = some i ∧ i.len = 5 ∧
    i.mnemonic = .jmp ∧ i.flow = .unconditionalBranch
  absolute : ∀ a, ∃ i, D.decode [0xFF, 0x25, 0, 0, 0, 0] a = some i ∧ i.len = 6 ∧
    i.mnemonic = .jmp ∧ i.flow = .indirectBranch
  int3 : ∀ a, ∃ i, D.decode [int3Opcode] a = some i ∧ i.len = 1 ∧ i.mnemonic = .int3 ∧
    i.flow = .interrupt

/-- A function of a module with a tidy file: a section spans it, and its first bytes can be read. -/
structure Resident (D : Detector) (image : DiskImage) (base func : ℕ) (s : Section) : Prop where
  tidy : image.Tidy
  above : base ≤ func
  found : image.sectionOf (func - base) = some s
  room : compareBytes ≤ s.left (func - base)
  readable : compareBytes ≤ D.readableBytesFrom func
  mapped : Mapped .x86_64 D.readableQuery func 14

theorem resolve_ne_zero {a : ℕ} (nonnull : a ≠ 0) : D.resolve mem a ≠ 0 := by
  unfold resolve
  rw [Arch.detourCodeFromPointer_eq]
  apply Chase.chase_induction (P := fun x => x ≠ 0) _ nonnull
  intro x y _ target
  unfold Arch.stubTarget at target
  have kept := Option.filter_eq_some_iff.mp target
  simpa using kept.2

/-- A jump in front of a chain of stubs leads to its end. -/
theorem resolve_of_leads {a b d : ℕ} (leads : D.Leads mem b d) (nonnull : b ≠ 0)
    (jump : detourCodeFromPointerOnce (isReadableRange .x86_64 D.readableQuery) mem a = some b) :
    D.resolve mem a = d ∧ D.resolve mem d = d := by
  obtain ⟨x, k, start, stop, few, path, ends⟩ := leads
  have first : Arch.x86_64.stubTarget D.readableQuery mem a = some b := by
    unfold Arch.stubTarget Arch.detourCodeFromPointerOnce
    rw [jump]
    simp [nonnull]
  let y : ℕ → ℕ := fun i => if i = 0 then a else x (i - 1)
  have whole : Chase.Path (Arch.x86_64.stubTarget D.readableQuery mem) y (k + 1) := by
    intro i less
    cases i with
    | zero =>
      change Arch.x86_64.stubTarget D.readableQuery mem a = some (x 0)
      rw [first, start]
    | succ i => exact path i (by omega)
  have last : Arch.x86_64.stubTarget D.readableQuery mem (y (k + 1)) = none := by
    change Arch.x86_64.stubTarget D.readableQuery mem (x k) = none
    rw [stop, ends]
  unfold resolve
  rw [Arch.detourCodeFromPointer_eq, Arch.detourCodeFromPointer_eq]
  constructor
  · rw [← stop]
    exact Chase.chase_end whole ((whole.distinct last).mono (by omega)) few last
  · exact @Chase.chase_end ℕ _ _ (fun _ => d) 0 _ (fun i less => absurd less (by omega))
      (fun i j _ less => absurd less (by omega)) (by decide) ends

theorem Decodes.head (decodes : D.Decodes) {bs rest : List UInt8} {a : ℕ} {i : Instruction}
    (decoded : D.decode bs a = some i) (len : i.len = bs.length) :
    D.decode (bs ++ rest) a = some i :=
  decodes.own decoded (by rw [len, List.take_append_of_le_length le_rfl])

/-- The decoder reads the jump that is written over a function. -/
theorem Decodes.jump (decodes : D.Decodes) (src dst : ℕ) (j : JumpType) (rest : List UInt8) (a : ℕ) :
    ∃ i, D.decode ((jumpBytes src dst j).take (opLen j) ++ rest) a = some i ∧ i.len = opLen j ∧
      i.mnemonic = .jmp ∧ (i.flow = .unconditionalBranch ↔ j = .relative5) ∧ i.flow ≠ .call := by
  cases j with
  | relative5 =>
    obtain ⟨i, decoded, len, mnemonic, flow⟩ :=
      decodes.near (leBytes 4 (jumpOffset src dst % 2 ^ 32).toNat) a (length_leBytes _ _)
    have taken : (jumpBytes src dst .relative5).take (opLen .relative5) =
        0xE9 :: leBytes 4 (jumpOffset src dst % 2 ^ 32).toNat :=
      List.take_of_length_le (by simp [jumpBytes, opLen])
    refine ⟨i, ?_, len, mnemonic, ⟨fun _ => rfl, fun _ => flow⟩, ?_⟩
    · rw [taken]
      exact decodes.head decoded (by simp [len])
    · rw [flow]
      decide
  | absolute14 =>
    obtain ⟨i, decoded, len, mnemonic, flow⟩ := decodes.absolute a
    have taken : (jumpBytes src dst .absolute14).take (opLen .absolute14) =
        [0xFF, 0x25, 0, 0, 0, 0] := rfl
    refine ⟨i, ?_, len, mnemonic, ⟨fun same => ?_, fun same => by cases same⟩, ?_⟩
    · rw [taken]
      exact decodes.head decoded len
    · rw [flow] at same
      cases same
    · rw [flow]
      decide

/-- Whatever is behind the bytes of a jump instruction, it is followed. -/
theorem once_of_op {readable : ℕ → ℕ → Bool} {m : ℕ → UInt8} {src dst : ℕ} {j : JumpType}
    (reads : Reads readable src 14) (room : src + 14 ≤ 2 ^ 64)
    (op : read m src (opLen j) = (jumpBytes src dst j).take (opLen j)) :
    detourCodeFromPointerOnce readable m src ≠ none := by
  have part : ∀ {i k : ℕ}, i + k ≤ opLen j →
      read m (src + i) k = (((jumpBytes src dst j).take (opLen j)).drop i).take k := by
    intro i k fits
    rw [← op, drop_read, take_read _ _ (by omega)]
  cases j with
  | relative5 =>
    rw [once_relative (fun i k positive fits => reads i k positive (by omega))
      (part (i := 0) (k := 1) (by decide)) (part (i := 1) (k := 4) (by decide))]
    exact Option.some_ne_none _
  | absolute14 =>
    rw [once_absolute reads room (part (i := 0) (k := 1) (by decide))
      (part (i := 1) (k := 1) (by decide)) (part (i := 2) (k := 4) (by decide)) rfl]
    exact Option.some_ne_none _

/-- The whole jump is followed to its destination. -/
theorem once_of_jump {readable : ℕ → ℕ → Bool} {m : ℕ → UInt8} {src dst : ℕ}
    (reads : Reads readable src 14) (room : src + 14 ≤ 2 ^ 64) (word : dst < 2 ^ 64)
    (laid : read m src (selectJump src dst).size = jumpBytes src dst (selectJump src dst)) :
    detourCodeFromPointerOnce readable m src = some dst := by
  have kept : write m src (jumpBytes src dst (selectJump src dst)) = m := by
    rw [← laid, write_read_self]
  rw [← kept, ← List.append_nil (jumpBytes src dst (selectJump src dst))]
  cases selected : selectJump src dst with
  | relative5 =>
    exact once_write_relative [] (fun i k positive fits => reads i k positive (by omega)) word
      selected
  | absolute14 => exact once_write_absolute [] reads room word

theorem Resident.length_memoryCode {image : DiskImage} {base : ℕ} {s : Section}
    (resident : D.Resident image base func s) :
    compareBytes ≤ (D.memoryCode mem base func s).length := by
  have room := resident.room
  have readable := resident.readable
  unfold memoryCode
  rw [length_read]
  unfold compareBytes at *
  omega

/-- Its first instruction has changed: it is decoded in the file, memory differs from it, and the
loader has not rewritten it. -/
theorem Resident.changed {image : DiskImage} {base : ℕ} {s : Section} {i : Instruction}
    (resident : D.Resident image base func s) (decodes : D.Decodes)
    (first : D.decode (fileCode image base func s) func = some i)
    (differs : (D.memoryCode mem base func s).take i.len ≠ (fileCode image base func s).take i.len)
    (kept : D.isImportCallRewrite mem i func = false) :
    (D.inlineHook mem func image base).run =
      .ok (if D.isSelfPatch (D.classify mem func (D.memoryCode mem base func s)) then none
        else some (D.classify mem func (D.memoryCode mem base func s))) := by
  have readable := resident.readable
  have long := @Resident.length_memoryCode D mem func image base s resident
  have short := decodes.short first
  have changed : D.Changed mem func (fileCode image base func s) (D.memoryCode mem base func s) 0 :=
    { reached := .start
      inside := ⟨by decide, lt_of_lt_of_le i.len_pos short.2⟩
      differs := ⟨i, first, by unfold compareBytes at long; omega, differs, kept⟩ }
  have verdict := changed.classified
  unfold compareBytes at readable
  rw [inlineHook_eq resident.tidy resident.above resident.found (by omega), verdict]
  rfl

/-- A jump over a function that is not a jump stub itself is reported with the place it leads to,
unless it stays inside a system module.  The near jump is taken for the loader's when the function
starts with an indirect call or jump through memory. -/
theorem jump_reported {image : DiskImage} {base detour d : ℕ} {s : Section} {i : Instruction}
    {pristine : ℕ → UInt8} (resident : D.Resident image base func s) (decodes : D.Decodes)
    (file : read pristine func (fileCode image base func s).length = fileCode image base func s)
    (plain : detourCodeFromPointerOnce (isReadableRange .x86_64 D.readableQuery) pristine func = none)
    (first : D.decode (fileCode image base func s) func = some i)
    (direct : selectJump func detour = .relative5 → importForm i = false)
    (laid : read mem func (selectJump func detour).size =
      jumpBytes func detour (selectJump func detour))
    (nonnull : detour ≠ 0) (word : detour < 2 ^ 64) (leads : D.Leads mem detour d) :
    (D.inlineHook mem func image base).run =
      .ok (if D.isSelfPatch ⟨.inlineJump, func, none, some d, D.moduleNameOf d⟩ then none
        else some ⟨.inlineJump, func, none, some d, D.moduleNameOf d⟩) := by
  have reads := resident.mapped.reads (le_refl 14)
  have room : func + 14 ≤ 2 ^ 64 := resident.mapped.room (by decide)
  obtain ⟨led, stays⟩ := resolve_of_leads leads nonnull (once_of_jump reads room word laid)
  have dest : d ≠ 0 := by
    rw [← led]
    exact resolve_ne_zero resident.mapped.1.ne'
  have op : ∀ n, opLen (selectJump func detour) ≤ n → ∃ rest, read mem func n =
      (jumpBytes func detour (selectJump func detour)).take (opLen (selectJump func detour)) ++
        rest := by
    intro n long
    refine ⟨(read mem func n).drop (opLen (selectJump func detour)), ?_⟩
    rw [← laid, take_read _ _ (opLen_le_size _), ← take_read mem func long, List.take_append_drop]
  have small := opLen_le (selectJump func detour)
  obtain ⟨rest, code⟩ := op (min (min (compareBytes + 32) (s.left (func - base)))
    (D.readableBytesFrom func)) (by
      have long := @Resident.length_memoryCode D mem func image base s resident
      unfold memoryCode compareBytes at *
      rw [length_read] at long
      omega)
  change D.memoryCode mem base func s = _ at code
  have decoded := decodes.jump func detour (selectJump func detour) rest func
  rw [← code] at decoded
  obtain ⟨jmp, decoded, len, -⟩ := decoded
  have live : ∃ jmp, D.decodeLive mem func = some jmp ∧ jmp.mnemonic = .jmp ∧
      (jmp.flow = .unconditionalBranch ↔ selectJump func detour = .relative5) ∧
      jmp.flow ≠ .call := by
    have readable := resident.readable
    unfold compareBytes at readable
    obtain ⟨rest, code⟩ := op (min (D.readableBytesFrom func) 15) (by omega)
    obtain ⟨jmp, decoded, -, verdict⟩ := decodes.jump func detour (selectJump func detour) rest func
    refine ⟨jmp, ?_, verdict⟩
    unfold decodeLive
    rw [if_neg (by omega), code, decoded]
  obtain ⟨live, seen, mnemonic, near, noCall⟩ := live
  have verdict : D.classify mem func (D.memoryCode mem base func s) =
      ⟨.inlineJump, func, none, some d, D.moduleNameOf d⟩ := by
    unfold classify changeOf
    rw [seen]
    simp only [mnemonic, led, Option.filter_some, ne_eq, dest, not_false_eq_true, decide_true,
      if_true, stays]
  rw [← verdict]
  apply resident.changed decodes first
  · intro same
    have again := decodes.own first same
    rw [decoded] at again
    obtain rfl := Option.some.inj again
    have fits : opLen (selectJump func detour) ≤ (fileCode image base func s).length :=
      len ▸ (decodes.short first).2
    apply @once_of_op _ _ _ detour (selectJump func detour) reads room _ plain
    rw [← take_read _ _ fits, file, ← len, ← same, code, len, List.take_append_of_le_length]
    · rw [List.take_take, min_self]
    · rw [List.length_take, length_jumpBytes]
      exact le_min le_rfl (opLen_le_size _)
  · unfold isImportCallRewrite
    rw [seen]
    cases selected : selectJump func detour with
    | relative5 =>
      rw [direct selected]
      rfl
    | absolute14 =>
      rw [selected] at near
      have far : live.flow ≠ .unconditionalBranch := fun same => nomatch near.mp same
      cases flow : live.flow <;> simp_all

/-- A breakpoint over a function that does not start with one is reported. -/
theorem breakpoint_reported {image : DiskImage} {base : ℕ} {s : Section} {i : Instruction}
    (resident : D.Resident image base func s) (decodes : D.Decodes)
    (first : D.decode (fileCode image base func s) func = some i)
    (plain : (fileCode image base func s).take 1 ≠ [int3Opcode]) (laid : mem func = int3Opcode) :
    (D.inlineHook mem func image base).run =
      .ok (some ⟨.breakpoint, func, none, none, none⟩) := by
  have head : ∀ n, 0 < n → ∃ rest, read mem func n = [int3Opcode] ++ rest := by
    intro n some_
    refine ⟨(read mem func n).drop 1, ?_⟩
    rw [← laid, show [mem func] = read mem func 1 from rfl, ← take_read mem func some_,
      List.take_append_drop]
  obtain ⟨jmp, decoded, len, mnemonic, flow⟩ := decodes.int3 func
  obtain ⟨rest, code⟩ := head (D.memoryCode mem base func s).length (by
    have long := @Resident.length_memoryCode D mem func image base s resident
    unfold compareBytes at long
    omega)
  have whole : D.memoryCode mem base func s = [int3Opcode] ++ rest := by
    rw [← code]
    unfold memoryCode
    rw [length_read]
  have seen : D.decodeLive mem func = some jmp := by
    have readable := resident.readable
    unfold compareBytes at readable
    obtain ⟨rest, code⟩ := head (min (D.readableBytesFrom func) 15) (by omega)
    unfold decodeLive
    rw [if_neg (by omega), code, decodes.head decoded len]
  have verdict : D.classify mem func (D.memoryCode mem base func s) =
      ⟨.breakpoint, func, none, none, none⟩ := by
    unfold classify changeOf
    rw [seen]
    simp only [mnemonic, Option.filter_none]
  have other : D.isSelfPatch ⟨.breakpoint, func, none, none, none⟩ = false := by
    unfold isSelfPatch
    cases D.moduleOf func <;> rfl
  rw [resident.changed decodes first _ _, verdict, other, if_neg Bool.false_ne_true]
  · intro same
    have again := decodes.own first same
    rw [whole, decodes.head decoded len] at again
    obtain rfl := Option.some.inj again
    rw [len, whole] at same
    exact plain same.symm
  · unfold isImportCallRewrite
    rw [seen]
    simp [flow]

/-- Code that is in memory as the loader maps it is not reported. -/
theorem unchanged_silent {image : DiskImage} {base : ℕ} {s : Section}
    (resident : D.Resident image base func s)
    (laid : read mem func (fileCode image base func s).length = fileCode image base func s) :
    (D.inlineHook mem func image base).run = .ok none := by
  have readable := resident.readable
  unfold compareBytes at readable
  rw [inlineHook_eq resident.tidy resident.above resident.found (by omega), compareFrom_unchanged]
  have cut : D.memoryCode mem base func s =
      (fileCode image base func s).take (D.readableBytesFrom func) := by
    rw [← laid, take_read_min, min_comm]
    unfold memoryCode fileCode
    rw [length_read]
  rw [cut]
  exact List.take_prefix _ _

/-! ### A module with two functions -/

/-- A decoder of a few instructions. -/
def sampleDecode : List UInt8 → ℕ → Option Instruction
  | 0xE9 :: a :: b :: c :: d :: _, ip =>
    some
      { len := 5, len_pos := Nat.succ_pos 4, mnemonic := .jmp, flow := .unconditionalBranch
        op0Kind := .nearBranch, op1Kind := .other, op0Register := 0, op1Register := 0
        immediate0 := 0, immediate1 := 0
        nearBranchTarget := offsetPtr ip (5 + signed 32 (ofLeBytes [a, b, c, d])) }
  | 0xFF :: 0x25 :: _ :: _ :: _ :: _ :: _, _ =>
    some
      { len := 6, len_pos := Nat.succ_pos 5, mnemonic := .jmp, flow := .indirectBranch
        op0Kind := .memory, op1Kind := .other, op0Register := 0, op1Register := 0
        immediate0 := 0, immediate1 := 0, nearBranchTarget := 0 }
  | 0xCC :: _, _ =>
    some
      { len := 1, len_pos := Nat.succ_pos 0, mnemonic := .int3, flow := .interrupt
        op0Kind := .other, op1Kind := .other, op0Register := 0, op1Register := 0
        immediate0 := 0, immediate1 := 0, nearBranchTarget := 0 }
  | 0xB8 :: a :: b :: c :: d :: _, _ =>
    some
      { len := 5, len_pos := Nat.succ_pos 4, mnemonic := .mov, flow := .next
        op0Kind := .register, op1Kind := .immediate32, op0Register := 0, op1Register := 0
        immediate0 := 0, immediate1 := ofLeBytes [a, b, c, d], nearBranchTarget := 0 }
  | _, _ => none

def sampleDetector : Detector where
  decode := sampleDecode
  query x := if x < 0x10000 then some ⟨0x1000, 0xF000, memCommit, 0x20⟩ else none
  moduleOf x := if 0x1000 ≤ x ∧ x < 0x3000 then some 0x1000 else none
  moduleNameOf x := if 0x1000 ≤ x ∧ x < 0x3000 then some "sample.dll" else none
  isSystemModule _ := false

/-- The file of a module at `0x1000` with two functions, at `0x1000` and at `0x2000`. -/
def sampleFile : DiskImage where
  bytes :=
    let func := [0xB8, 0x2A, 0x00, 0x00, 0x00, 0xC3] ++ List.replicate 42 0xCC
    func ++ func
  sections := [⟨0, 48, 0, 48, true⟩, ⟨0x1000, 48, 48, 48, true⟩]
  imageBase := 0x1000
  relocations := []
  exportFunctions := none

theorem sampleDetector_decodes : sampleDetector.Decodes where
  short {bs a i} decoded := by
    change sampleDecode bs a = some i at decoded
    unfold sampleDecode at decoded
    split at decoded <;> cases decoded <;> simp
  own {bs bs' a i} decoded same := by
    change sampleDecode bs a = some i at decoded
    change sampleDecode bs' a = some i
    rw [← List.take_append_drop i.len bs', same]
    unfold sampleDecode at decoded
    split at decoded <;> cases decoded <;> rfl
  near rel a four := by
    obtain ⟨w, x, y, z, rfl⟩ := List.length_eq_four.mp four
    exact ⟨_, rfl, rfl, rfl, rfl⟩
  absolute a := ⟨_, rfl, rfl, rfl, rfl⟩
  int3 a := ⟨_, rfl, rfl, rfl, rfl⟩

theorem sampleFile_tidy : sampleFile.Tidy := by
  refine ⟨?_, by decide, by unfold Ascending; decide, by decide⟩
  refine List.pairwise_pair.mpr fun rva both => ?_
  have first := (spans_iff.mp both.1).2
  have second := (spans_iff.mp both.2).1
  simp only at first second
  omega

theorem sampleFile_resident (func : ℕ) (sec : Section) (above : 0x1000 ≤ func)
    (below : func < 0xF000)
    (found : sampleFile.sectionOf (func - 0x1000) = some sec)
    (room : compareBytes ≤ sec.left (func - 0x1000)) :
    sampleDetector.Resident sampleFile 0x1000 func sec := by
  have query : ∀ x, x < 0x10000 →
      sampleDetector.query x = some ⟨0x1000, 0xF000, memCommit, 0x20⟩ := fun x less => if_pos less
  refine ⟨sampleFile_tidy, above, found, room, ?_, by omega, fun x inside => ?_⟩
  · unfold readableBytesFrom
    rw [query func (by omega)]
    change compareBytes ≤ (if _ then 0 else saturatingAdd 0x1000 0xF000 - func)
    rw [if_neg (by decide)]
    unfold saturatingAdd usizeMax compareBytes
    omega
  · have high := inside.2
    refine ⟨⟨0x1000, 0xF000, 0, true, false⟩, ?_, rfl, ?_, ?_, by decide⟩
    · unfold readableQuery
      rw [query x (by omega)]
      rfl
    · exact above.trans inside.1
    · change func + 14 ≤ 0x1000 + 0xF000
      omega

/-- A breakpoint over the first function, with the second instruction behind it changed too. -/
def trappedCode : ℕ → UInt8 :=
  write (fun _ => 0xCC) 0x1000 [0xCC, 0x2A, 0x00, 0x00, 0x00, 0xC2]

theorem trappedCode_changed :
    ∃ o < compareBytes,
      sampleDetector.Changed trappedCode 0x1000 (fileCode sampleFile 0x1000 0x1000 ⟨0, 48, 0, 48, true⟩)
        (sampleDetector.memoryCode trappedCode 0x1000 0x1000 ⟨0, 48, 0, 48, true⟩) o ∧
      ⟨.breakpoint, 0x1000, none, none, none⟩ = sampleDetector.classify trappedCode (0x1000 + o)
        ((sampleDetector.memoryCode trappedCode 0x1000 0x1000 ⟨0, 48, 0, 48, true⟩).drop o) ∧
      sampleDetector.isSelfPatch ⟨.breakpoint, 0x1000, none, none, none⟩ = false :=
  (inlineHook_exact sampleFile_tidy (by decide) (by decide) (by decide +kernel) _).mp
    (by decide +kernel)

end Detector

end Detect

end NeoHook
