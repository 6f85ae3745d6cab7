import NeoHook.RegionScan
import NeoHook.Lib.Logged

/-!
# Mapped images

`pe.rs`: the headers of a module in memory are checked once, and RVAs are then translated to
pointers inside the image.  A `Walk` logs every read of memory and every sum that the source forms
without a check, so that bounds can be stated of whole walks over the tables of an image.

Strings are lists of bytes; `validUtf8` is what `String::from_utf8` asks of them.
-/

namespace NeoHook

open ByteMap

/-- What a walk does: it reads memory, or adds without a check. -/
inductive Access where
  | read (addr len : ℕ)
  | sum (value : ℕ)
  deriving DecidableEq

/-- A computation over the memory of the process. -/
abbrev Walk := Logged Access

namespace Pe

/-- Reads `len` bytes at `addr`. -/
def touch (addr len : ℕ) : Walk Unit := Logged.tell (.read addr len)

/-- `a + b` on `usize`, without a check. -/
def plus (a b : ℕ) : Walk ℕ := do
  Logged.tell (.sum (a + b))
  return a + b

def checkedAdd (a b : ℕ) : Option ℕ := if a + b < 2 ^ 64 then some (a + b) else none

def checkedMul (a b : ℕ) : Option ℕ := if a * b < 2 ^ 64 then some (a * b) else none

/-- The little-endian number of `len` bytes at `addr`. -/
def number (mem : ℕ → UInt8) (addr len : ℕ) : ℕ := ofLeBytes (read mem addr len)

/-- A number that is read. -/
def load (mem : ℕ → UInt8) (addr len : ℕ) : Walk ℕ := do
  touch addr len
  return number mem addr len

inductive PeError where
  | nullModule | invalidDosHeader | invalidNtHeader | invalidNtSignature | invalidOptionalHeader
  deriving DecidableEq, Repr

/-- `SizeOfImage` bytes mapped at `baseAddress`. -/
structure ModuleImage where
  baseAddress : ℕ
  size : ℕ
  deriving DecidableEq

/-- An image at a user-mode address; its size is a `u32`. -/
structure ModuleImage.Mapped (image : ModuleImage) : Prop where
  base_lt : image.baseAddress < 2 ^ 47
  size_lt : image.size < 2 ^ 32

/-! ### Headers -/

def maxELfanew : ℕ := 256 * 1024 * 1024

/-- `size_of::<IMAGE_DOS_HEADER>()`. -/
def dosHeaderSize : ℕ := 64

/-- `size_of::<IMAGE_NT_HEADERS64>()`. -/
def ntHeadersSize : ℕ := 264

/-- An `i32`, `as usize`. -/
def signExtend (v : ℕ) : ℕ := if v < 2 ^ 31 then v else v + (2 ^ 64 - 2 ^ 32)

/-- The loop of `is_readable`. -/
def readableFrom (query : ℕ → Option RegionScan.Information) (stop cur : ℕ) : Bool :=
  if cur < stop then
    match query cur with
    | none => false
    | some mbi =>
      if mbi.state ≠ memCommit ∨ mbi.protect &&& (pageNoaccess ||| pageGuard) ≠ 0 ∨
          mbi.protect = 0 then false
      else if 2 ^ 64 ≤ mbi.baseAddress + mbi.regionSize then false
      else if mbi.baseAddress + mbi.regionSize ≤ cur then false
      else readableFrom query stop (mbi.baseAddress + mbi.regionSize)
  else true
termination_by stop - cur

def isReadable (query : ℕ → Option RegionScan.Information) (addr len : ℕ) : Bool :=
  match checkedAdd addr len with
  | none => false
  | some stop => readableFrom query stop addr

section Image

variable (query : ℕ → Option RegionScan.Information) (mem : ℕ → UInt8)

/-- `parse_module_image` from the DOS signature on. -/
def parseDos (baseAddress : ℕ) : Walk (Except PeError ModuleImage) := do
  let magic ← load mem baseAddress 2
  if magic ≠ 0x5A4D then return .error .invalidDosHeader
  let eLfanew ← load mem (baseAddress + 0x3C) 4
  if eLfanew = 0 ∨ 2 ^ 31 ≤ eLfanew ∨ maxELfanew ≤ eLfanew then return .error .invalidNtHeader
  match checkedAdd baseAddress eLfanew with
  | none => return .error .invalidNtHeader
  | some nt =>
    if isReadable query nt ntHeadersSize = false then return .error .invalidNtHeader
    let signature ← load mem nt 4
    if signature ≠ 0x4550 then return .error .invalidNtSignature
    let magic ← load mem (nt + 24) 2
    if magic ≠ 0x20B then return .error .invalidOptionalHeader
    let size ← load mem (nt + 80) 4
    if size = 0 then return .error .invalidOptionalHeader
    return .ok ⟨baseAddress, size⟩

def parseModuleImage (baseAddress : ℕ) : Walk (Except PeError ModuleImage) :=
  if baseAddress = 0 then return .error .nullModule
  else if isReadable query baseAddress dosHeaderSize = false then return .error .invalidDosHeader
  else parseDos query mem baseAddress

variable (image : ModuleImage)

/-- The NT headers, found again through the DOS header. -/
def ntHeaders : Walk ℕ := do
  let eLfanew ← load mem (image.baseAddress + 0x3C) 4
  plus image.baseAddress (signExtend eLfanew)

/-- `data_directory`: `none` when the directory is absent, empty or not inside the image. -/
def dataDirectory (index : ℕ) : Walk (Option (ℕ × ℕ)) := do
  let nt ← ntHeaders mem image
  let count ← load mem (nt + 132) 4
  if count ≤ index then return none
  touch (nt + 136 + 8 * index) 8
  let rva := number mem (nt + 136 + 8 * index) 4
  let size := number mem (nt + 136 + 8 * index + 4) 4
  if rva = 0 ∨ size = 0 then return none
  match checkedAdd rva size with
  | none => return none
  | some stop => return if image.size < stop then none else some (rva, size)

/-- `data_directory_rva`: the same without the size. -/
def dataDirectoryRva (index : ℕ) : Walk (Option ℕ) := do
  let nt ← ntHeaders mem image
  let count ← load mem (nt + 132) 4
  if count ≤ index then return none
  let rva ← load mem (nt + 136 + 8 * index) 4
  return if rva = 0 ∨ image.size ≤ rva then none else some rva

/-! ### RVAs -/

/-- `rva_to_ptr` for a type of `size` bytes. -/
def rvaToPtr (size rva : ℕ) : Option ℕ :=
  if rva = 0 ∨ size = 0 then none
  else
    match checkedAdd rva size with
    | none => none
    | some stop => if image.size < stop then none else checkedAdd image.baseAddress rva

/-- The loop of `c_str_bytes_from_rva`; below `stop` its additions do not overflow. -/
def cStrFrom (start stop cur : ℕ) : Walk (Option (List UInt8)) :=
  if cur < stop then do
    let byte ← load mem cur 1
    if byte = 0 then return some (read mem start (cur - start))
    else cStrFrom start stop (cur + 1)
  else return none
termination_by stop - cur

/-- `c_str_bytes_from_rva`: the string at `rva`, if it ends inside the image. -/
def cStrBytes (rva : ℕ) : Walk (Option (List UInt8)) :=
  if rva = 0 ∨ image.size ≤ rva then return none
  else
    match checkedAdd image.baseAddress rva, checkedAdd image.baseAddress image.size with
    | some start, some stop => cStrFrom mem start stop start
    | _, _ => return none

/-- A byte that continues a character. -/
def continues (b : UInt8) : Bool := 0x80 ≤ b && b ≤ 0xBF

/-- The bytes are UTF-8. -/
def validUtf8 : List UInt8 → Bool
  | [] => true
  | a :: rest =>
    if a ≤ 0x7F then validUtf8 rest
    else
      match rest with
      | [] => false
      | b :: rest =>
        if 0xC2 ≤ a ∧ a ≤ 0xDF then continues b && validUtf8 rest
        else
          match rest with
          | [] => false
          | c :: rest =>
            if a = 0xE0 then 0xA0 ≤ b && b ≤ 0xBF && continues c && validUtf8 rest
            else if a = 0xED then 0x80 ≤ b && b ≤ 0x9F && continues c && validUtf8 rest
            else if 0xE1 ≤ a ∧ a ≤ 0xEF then continues b && continues c && validUtf8 rest
            else
              match rest with
              | [] => false
              | d :: rest =>
                if a = 0xF0 then
                  0x90 ≤ b && b ≤ 0xBF && continues c && continues d && validUtf8 rest
                else if a = 0xF4 then
                  0x80 ≤ b && b ≤ 0x8F && continues c && continues d && validUtf8 rest
                else if 0xF1 ≤ a ∧ a ≤ 0xF3 then
                  continues b && continues c && continues d && validUtf8 rest
                else false

/-- `read_c_string_from_rva`. -/
def readCString (rva : ℕ) : Walk (Option (List UInt8)) := do
  match ← cStrBytes mem image rva with
  | none => return none
  | some bytes => return if validUtf8 bytes then some bytes else none

/-- The `index`-th number of `width` bytes in the array at `baseRva`. -/
def readElement (width baseRva index : ℕ) : Walk (Option ℕ) :=
  match checkedMul index width with
  | none => return none
  | some offset =>
    match checkedAdd baseRva offset with
    | none => return none
    | some rva =>
      match rvaToPtr image width rva with
      | none => return none
      | some ptr => some <$> load mem ptr width

def readU32 (baseRva index : ℕ) : Walk (Option ℕ) := readElement mem image 4 baseRva index

def readU16 (baseRva index : ℕ) : Walk (Option ℕ) := readElement mem image 2 baseRva index

def readUsize (rva : ℕ) : Walk (Option ℕ) :=
  match rvaToPtr image 8 rva with
  | none => return none
  | some ptr => some <$> load mem ptr 8

end Image

end Pe

end NeoHook
