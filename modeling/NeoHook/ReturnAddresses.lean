import NeoHook.Lib.Logged
import NeoHook.Redirect

/-!
# Return addresses in stolen bytes

A stack word that points behind a near call of the stolen bytes is a return address and has to be
redirected.  `is_plausible_return_address` finds the call from its end: it looks at the seven bytes
in front of the word for an opcode whose instruction ends there.
-/

namespace NeoHook

open ByteMap

/-! ### Near calls -/

/-- What follows a ModRM byte with these `mod` and `rm` fields in 32- and 64-bit addressing: the SIB
byte and the displacement. -/
inductive ModRmTail : ℕ → UInt8 → List UInt8 → Prop
  | register (rm : UInt8) : ModRmTail 3 rm []
  | memory {rm : UInt8} (plain : rm ≠ 4 ∧ rm ≠ 5) : ModRmTail 0 rm []
  | absolute {disp : List UInt8} (wide : disp.length = 4) : ModRmTail 0 5 disp
  | sib {sib : UInt8} (based : sib &&& 7 ≠ 5) : ModRmTail 0 4 [sib]
  | sibAbsolute {sib : UInt8} {disp : List UInt8} (baseless : sib &&& 7 = 5)
    (wide : disp.length = 4) : ModRmTail 0 4 (sib :: disp)
  | disp8 {rm : UInt8} (plain : rm ≠ 4) (disp : UInt8) : ModRmTail 1 rm [disp]
  | sibDisp8 (sib disp : UInt8) : ModRmTail 1 4 [sib, disp]
  | disp32 {rm : UInt8} {disp : List UInt8} (plain : rm ≠ 4) (wide : disp.length = 4) :
    ModRmTail 2 rm disp
  | sibDisp32 (sib : UInt8) {disp : List UInt8} (wide : disp.length = 4) :
    ModRmTail 2 4 (sib :: disp)

/-- The bytes of a near call, whatever its prefixes are: `E8 rel32` or `FF /2`. -/
inductive NearCall : List UInt8 → Prop
  | relative (prefixes : List UInt8) {rel : List UInt8} (wide : rel.length = 4) :
    NearCall (prefixes ++ 0xE8 :: rel)
  | indirect (prefixes : List UInt8) {modrm : UInt8} {tail : List UInt8}
    (field : (modrm >>> 3) &&& 7 = 2) (form : ModRmTail (modrm >>> 6).toNat (modrm &&& 7) tail) :
    NearCall (prefixes ++ 0xFF :: modrm :: tail)

theorem ModRmTail.length_le {mod : ℕ} {rm : UInt8} {tail : List UInt8}
    (form : ModRmTail mod rm tail) : tail.length ≤ 5 := by
  cases form with
  | register | memory _ | sib _ | disp8 _ _ | sibDisp8 _ _ => simp
  | absolute wide | disp32 _ wide => omega
  | sibAbsolute _ wide | sibDisp32 _ wide =>
    rw [List.length_cons]
    omega

/-- The length that the code computes for an opcode is the encoded one. -/
theorem callLen_of_tail {modrm : UInt8} {tail : List UInt8}
    (form : ModRmTail (modrm >>> 6).toNat (modrm &&& 7) tail) :
    callLen modrm (tail.headD modrm) (tail.length + 2) = some (tail.length + 2) := by
  unfold callLen
  generalize (modrm >>> 6).toNat = mod at form ⊢
  generalize modrm &&& 7 = rm at form ⊢
  cases form with
  | register rm => rfl
  | memory plain => simp [plain.1, plain.2]
  | absolute wide => simp [wide]
  | sib based => simp [based]
  | sibAbsolute baseless wide => simp [baseless, wide]
  | disp8 plain disp => simp [plain]
  | sibDisp8 sib disp => simp
  | disp32 plain wide => simp [plain, wide]
  | sibDisp32 sib wide => simp [wide]

/-! ### The window before the value -/

variable {mem : ℕ → UInt8} {d : InlineData}

/-- The window starts with the stolen bytes in front of the value, nearest first. -/
theorem callWindow_starts {front back : List UInt8} (bytes : d.origBytes = front ++ back)
    (n : ℕ) {k : ℕ} (positive : 1 ≤ k) :
    ∃ more, callWindow mem d (d.target + front.length) n k =
      (front.reverse.drop (k - 1)).take n ++ more := by
  induction n generalizing k with
  | zero => exact ⟨[], rfl⟩
  | succ n ih =>
    by_cases inside : k ≤ front.length
    · obtain ⟨more, rest⟩ := ih (k := k + 1) (by omega)
      have less : k - 1 < front.reverse.length := by
        rw [List.length_reverse]
        omega
      have byte : callByte mem d (d.target + front.length) k = some front.reverse[k - 1] := by
        unfold callByte
        rw [if_neg (by omega)]
        simp only
        rw [if_pos (by omega), bytes, show d.target + front.length - k - d.target =
          front.length - k by omega, List.getElem?_append_left (by omega),
          List.getElem?_eq_getElem (by omega), List.getElem_reverse]
        congr 2
        omega
      refine ⟨more, ?_⟩
      rw [callWindow, byte]
      simp only
      rw [rest, List.drop_eq_getElem_cons less, show k - 1 + 1 = k by omega, Nat.add_sub_cancel,
        List.take_succ_cons, List.cons_append]
    · refine ⟨callWindow mem d (d.target + front.length) (n + 1) k, ?_⟩
      rw [List.drop_eq_nil_of_le (by rw [List.length_reverse]; omega), List.take_nil,
        List.nil_append]

/-- The last bytes of an instruction show in the window from its end. -/
theorem callWindow_of_end {front code back : List UInt8}
    (bytes : d.origBytes = front ++ code ++ back) (short : code.length ≤ maxCallLen) :
    ∃ more, callWindow mem d (d.target + (front ++ code).length) maxCallLen 1 =
      code.reverse ++ more := by
  obtain ⟨more, starts⟩ := @callWindow_starts mem d _ _ bytes maxCallLen _ le_rfl
  refine ⟨front.reverse.take (maxCallLen - code.reverse.length) ++ more, ?_⟩
  rw [starts, Nat.sub_self, List.drop_zero, List.reverse_append, List.take_append,
    List.take_of_length_le (by rw [List.length_reverse]; exact short), List.append_assoc]

/-! ### Reads -/

/-- `callByte`, logging the address that is read from memory. -/
def loadCallByte (mem : ℕ → UInt8) (d : InlineData) (value k : ℕ) : Logged ℕ (Option UInt8) :=
  if value < k then return none
  else
    let addr := value - k
    if d.target ≤ addr then return d.origBytes[addr - d.target]?
    else if d.target / pageSize * pageSize ≤ addr then do
      Logged.tell addr
      return some (mem addr)
    else return none

/-- `callWindow`, logging the addresses that are read from memory. -/
def loadCallWindow (mem : ℕ → UInt8) (d : InlineData) (value : ℕ) :
    ℕ → ℕ → Logged ℕ (List UInt8)
  | 0, _ => return []
  | n + 1, k => do
    match ← loadCallByte mem d value k with
    | none => return []
    | some b => do
      let more ← loadCallWindow mem d value n (k + 1)
      return b :: more

/-- A call ends at the end of the bytes of a window. -/
def endsInCall (window : List UInt8) : Bool :=
  let byte := fun k => window.getD (k - 1) 0
  (5 ≤ window.length && byte 5 = 0xE8) ||
    (List.range (window.length + 1)).any fun len =>
      2 ≤ len && byte len = 0xFF && (byte (len - 1) >>> 3) &&& 7 = 2 &&
        callLen (byte (len - 1)) (byte (len - 2)) len = some len

/-- `isPlausibleReturnAddress`, logging the addresses that are read from memory. -/
def loadPlausibleReturnAddress (mem : ℕ → UInt8) (d : InlineData) (value : ℕ) : Logged ℕ Bool :=
  if value ≤ d.target ∨ d.target + d.stolenLen ≤ value then return false
  else do
    let window ← loadCallWindow mem d value maxCallLen 1
    return endsInCall window

/-- An address on the page of the target, in front of the target. -/
def InFrontOnPage (d : InlineData) (addr : ℕ) : Prop :=
  d.target / pageSize * pageSize ≤ addr ∧ addr < d.target

theorem value_loadCallByte (value k : ℕ) :
    (loadCallByte mem d value k).value = callByte mem d value k := by
  unfold loadCallByte callByte
  split_ifs with below
  · rfl
  · simp only
    split_ifs <;> rfl

theorem value_loadCallWindow (value n k : ℕ) :
    (loadCallWindow mem d value n k).value = callWindow mem d value n k := by
  induction n generalizing k with
  | zero => rfl
  | succ n ih =>
    rw [loadCallWindow, callWindow, Logged.value_bind, value_loadCallByte]
    cases callByte mem d value k with
    | none => rfl
    | some b =>
      simp only
      rw [Logged.value_bind, ih]
      rfl

theorem loadCallByte_onPage (value k : ℕ) :
    (loadCallByte mem d value k).All (InFrontOnPage d) := by
  unfold loadCallByte
  split_ifs with below
  · exact Logged.all_pure _
  · simp only
    split_ifs with saved onPage
    · exact Logged.all_pure _
    · exact (Logged.all_tell ⟨onPage, by omega⟩).bind (Logged.all_pure _)
    · exact Logged.all_pure _

theorem loadCallWindow_onPage (value n k : ℕ) :
    (loadCallWindow mem d value n k).All (InFrontOnPage d) := by
  induction n generalizing k with
  | zero => exact Logged.all_pure _
  | succ n ih =>
    refine (loadCallByte_onPage value k).bind ?_
    cases (loadCallByte mem d value k).value with
    | none => exact Logged.all_pure _
    | some b => exact (ih (k + 1)).bind (Logged.all_pure _)

theorem value_loadPlausibleReturnAddress (value : ℕ) :
    (loadPlausibleReturnAddress mem d value).value = isPlausibleReturnAddress mem d value := by
  unfold loadPlausibleReturnAddress isPlausibleReturnAddress
  split_ifs with outside
  · rfl
  · rw [Logged.value_bind, value_loadCallWindow]
    rfl

theorem loadPlausibleReturnAddress_onPage (value : ℕ) :
    (loadPlausibleReturnAddress mem d value).All (InFrontOnPage d) := by
  unfold loadPlausibleReturnAddress
  split_ifs with outside
  · exact Logged.all_pure _
  · exact (loadCallWindow_onPage value _ _).bind (Logged.all_pure _)

/-! ### Plausible return addresses -/

theorem isPlausibleReturnAddress_outside {value : ℕ}
    (outside : value ≤ d.target ∨ d.target + d.stolenLen ≤ value) :
    isPlausibleReturnAddress mem d value = false := if_pos outside

theorem isPlausibleReturnAddress_inside {value : ℕ} (low : d.target < value)
    (high : value < d.target + d.stolenLen) :
    isPlausibleReturnAddress mem d value = endsInCall (callWindow mem d value maxCallLen 1) :=
  if_neg (by omega)

/-- `call rel32` is found five bytes before its end. -/
theorem endsInCall_relative {rel more : List UInt8} (wide : rel.length = 4) :
    endsInCall ((0xE8 :: rel).reverse ++ more) = true := by
  match rel, wide with
  | [a, b, c, d], _ => simp [endsInCall]

/-- `call r/m` is found from its length. -/
theorem endsInCall_indirect {modrm : UInt8} {tail more : List UInt8}
    (field : (modrm >>> 3) &&& 7 = 2) (form : ModRmTail (modrm >>> 6).toNat (modrm &&& 7) tail) :
    endsInCall ((0xFF :: modrm :: tail).reverse ++ more) = true := by
  have whole : (0xFF :: modrm :: tail).reverse ++ more =
      tail.reverse ++ modrm :: 0xFF :: more := by simp
  have opcode : (tail.reverse ++ modrm :: 0xFF :: more).getD (tail.length + 2 - 1) 0 = 0xFF := by
    rw [List.getD_append_right _ _ _ _ (by rw [List.length_reverse]; omega), List.length_reverse,
      show tail.length + 2 - 1 - tail.length = 1 by omega]
    rfl
  have field' : (tail.reverse ++ modrm :: 0xFF :: more).getD (tail.length + 2 - 1 - 1) 0 =
      modrm := by
    rw [List.getD_append_right _ _ _ _ (by rw [List.length_reverse]; omega), List.length_reverse,
      show tail.length + 2 - 1 - 1 - tail.length = 0 by omega]
    rfl
  have sib : (tail.reverse ++ modrm :: 0xFF :: more).getD (tail.length + 2 - 2 - 1) 0 =
      tail.headD modrm := by
    cases tail with
    | nil => rfl
    | cons a rest => simp
  have inside : tail.length + 2 < (tail.reverse ++ modrm :: 0xFF :: more).length + 1 := by
    simp only [List.length_append, List.length_reverse, List.length_cons]
    omega
  rw [whole]
  unfold endsInCall
  simp only [Bool.or_eq_true, List.any_eq_true, List.mem_range, Bool.and_eq_true,
    decide_eq_true_eq]
  refine .inr ⟨tail.length + 2, inside, ⟨⟨by omega, opcode⟩, ?_⟩, ?_⟩
  · rw [field']
    exact field
  · rw [field', sib]
    exact callLen_of_tail form

/-- Behind a near call of the stolen bytes every address is plausible. -/
theorem isPlausibleReturnAddress_call (captured : d.origBytes.length = d.stolenLen)
    {front call back : List UInt8} (bytes : d.origBytes = front ++ call ++ back)
    (near : NearCall call) (inside : back ≠ []) :
    isPlausibleReturnAddress mem d (d.target + (front ++ call).length) = true := by
  have strictly : d.target + (front ++ call).length < d.target + d.stolenLen := by
    have rest := List.length_pos_of_ne_nil inside
    rw [← captured, bytes, @List.length_append _ (front ++ call) back]
    omega
  cases near with
  | relative prefixes wide =>
    rename_i rel
    rw [← List.append_assoc] at bytes strictly ⊢
    obtain ⟨more, window⟩ := @callWindow_of_end mem d _ _ _ bytes (by
      rw [List.length_cons, wide]
      decide)
    rw [isPlausibleReturnAddress_inside (by simp) strictly, window, endsInCall_relative wide]
  | indirect prefixes field form =>
    rename_i modrm tail
    rw [← List.append_assoc] at bytes strictly ⊢
    obtain ⟨more, window⟩ := @callWindow_of_end mem d _ _ _ bytes (by
      have := form.length_le
      simp only [List.length_cons, maxCallLen]
      omega)
    rw [isPlausibleReturnAddress_inside (by simp) strictly, window, endsInCall_indirect field form]

/-- Return addresses behind the near calls of the stolen bytes are found; the target and the
addresses outside of the stolen bytes are not return addresses; and memory is only read on the page
of the target. -/
theorem isPlausibleReturnAddress_exact (mem : ℕ → UInt8)
    (captured : d.origBytes.length = d.stolenLen) :
    (∀ front call back, d.origBytes = front ++ call ++ back → NearCall call → back ≠ [] →
      isPlausibleReturnAddress mem d (d.target + (front ++ call).length) = true) ∧
      (∀ value, value = d.target ∨ ¬ InRange d.target d.stolenLen value →
        isPlausibleReturnAddress mem d value = false) ∧
      ∀ value, (loadPlausibleReturnAddress mem d value).value =
          isPlausibleReturnAddress mem d value ∧
        (loadPlausibleReturnAddress mem d value).All (InFrontOnPage d) := by
  refine ⟨fun front call back bytes near inside => ?_, fun value outside => ?_, fun value => ?_⟩
  · exact isPlausibleReturnAddress_call captured bytes near inside
  · refine isPlausibleReturnAddress_outside ?_
    unfold InRange at outside
    omega
  · exact ⟨value_loadPlausibleReturnAddress value, loadPlausibleReturnAddress_onPage value⟩

/-- A hook that has stolen `nop; call [rsp]; nop; nop`. -/
def stolenCall : InlineData :=
  { target := 0x1000, detour := 0x2000, trampoline := ⟨0x3000, 64⟩, stolenLen := 6,
    jumpType := .relative5, origBytes := [0x90, 0xFF, 0x14, 0x24, 0x90, 0x90],
    redirectBase := 0x3000, targetKind := .normal, redirectMap := none }

theorem stolenCall_found :
    isPlausibleReturnAddress (fun _ => 0) stolenCall 0x1004 = true ∧
      isPlausibleReturnAddress (fun _ => 0) stolenCall 0x1000 = false ∧
      (loadPlausibleReturnAddress (fun _ => 0) stolenCall 0x1004).All
        (InFrontOnPage stolenCall) := by
  obtain ⟨calls, outside, reads⟩ :=
    isPlausibleReturnAddress_exact (fun _ => 0) (d := stolenCall) rfl
  have form : ModRmTail ((0x14 : UInt8) >>> 6).toNat ((0x14 : UInt8) &&& 7) [0x24] :=
    @ModRmTail.sib 0x24 (by decide)
  refine ⟨calls [0x90] [0xFF, 0x14, 0x24] [0x90, 0x90] rfl ?_ (by decide), ?_, ?_⟩
  · exact .indirect [] (by decide) form
  · exact outside 0x1000 (.inl rfl)
  · exact (reads 0x1004).2

end NeoHook
