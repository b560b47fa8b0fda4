import Nachos.Library.Outcome
import Nachos.Library.Words
import Nachos.VM.AddrSpace

/-! # Object files

`coff2noff` turns a COFF file into the NOFF file that the constructor of
`AddrSpace` loads, and `coff2flat` turns it into the bytes of the program's
memory. Both run on a little-endian host with words of 32 bits, and read the
same headers first.
-/

namespace Nachos.Bin

open Words VM

/-! ## Files -/

inductive Error
  | tooShort
  | notMipsel
  | notOmagic
  | dataAndRdata
  | bssAndSbss
  | unknownSegment (s_name : List UInt8)
  deriving DecidableEq

def cString (bytes : List UInt8) : String :=
  String.ofList ((bytes.takeWhile (· ≠ 0)).map fun b => Char.ofNat b.toNat)

def Error.message : Error → String
  | .tooShort => "File is too short\n"
  | .notMipsel => "File is not a MIPSEL COFF file\n"
  | .notOmagic => "File is not a OMAGIC file\n"
  | .dataAndRdata => "Can't handle both data and rdata\n"
  | .bssAndSbss => "Can't handle both bss and sbss\n"
  | .unknownSegment s_name => "Unknown segment type: " ++ cString s_name ++ "\n"

structure Input where
  bytes : List UInt8
  offset : ℕ

namespace Input

/-- The system call `read`: the bytes up to the end of the file, and `-1` for a negative count. -/
def sysRead (fd : Input) (nBytes : ℤ) : ℤ × List UInt8 × Input :=
  if nBytes < 0 then (-1, [], fd)
  else
    let buf := (fd.bytes.drop fd.offset).take nBytes.toNat
    (buf.length, buf, { fd with offset := fd.offset + buf.length })

def read (fd : Input) (nBytes : ℤ) : Except Error (List UInt8 × Input) :=
  let (n, buf, fd) := fd.sysRead nBytes
  if n ≠ nBytes then .error .tooShort else .ok (buf, fd)

/-- The system call `lseek`, from the start of the file. It fails for a negative offset, and the
converters do not check. -/
def lseek (fd : Input) (offset : ℤ) : Input :=
  if offset < 0 then fd else { fd with offset := offset.toNat }

end Input

/-! ## The headers of a COFF file -/

def MIPSELMAGIC : ℕ := 0x0162

def OMAGIC : ℕ := 0o407

/-- The fields of `scnhdr` that the converters use. -/
structure Section where
  s_name : List UInt8
  s_paddr : ℤ
  s_size : ℤ
  s_scnptr : ℤ
  deriving DecidableEq

namespace Section

def ofBytes (f : ℕ → UInt8) : Section where
  s_name := (List.range 8).map f
  s_paddr := int fun i => f (8 + i)
  s_size := int fun i => f (16 + i)
  s_scnptr := int fun i => f (20 + i)

/-- `strcmp` finds the name to be equal to one of less than eight characters. -/
def isNamed (s : Section) (name : String) : Bool :=
  s.s_name.take (name.length + 1) = name.toList.map (fun c => UInt8.ofNat c.toNat) ++ [0]

inductive Kind | text | data | bss
  deriving DecidableEq

def kind (s : Section) : Option Kind :=
  if s.isNamed ".text" then some .text
  else if s.isNamed ".data" || s.isNamed ".rdata" then some .data
  else if s.isNamed ".bss" || s.isNamed ".sbss" then some .bss
  else none

end Section

/-- The headers, which both converters read first. The sizes are those of `filehdr`, `aouthdr` and
`scnhdr`. -/
def readSections (file : List UInt8) : Except Error (List Section × Input) := do
  let (fileh, fdIn) ← Input.read ⟨file, 0⟩ 20
  let f_magic := short fun i => fileh.getD i 0
  let f_nscns := short fun i => fileh.getD (2 + i) 0
  if f_magic ≠ MIPSELMAGIC then .error .notMipsel
  else
    let (systemh, fdIn) ← fdIn.read 56
    if (short fun i => systemh.getD i 0) ≠ OMAGIC then .error .notOmagic
    else
      let (sections, fdIn) ← fdIn.read (f_nscns * 40)
      .ok ((List.range f_nscns).map fun k =>
        Section.ofBytes fun i => sections.getD (40 * k + i) 0, fdIn)

/-! ## The header of a NOFF file -/

structure NoffHeader where
  noffMagic : ℤ
  code : Segment
  initData : Segment
  uninitData : Segment

namespace NoffHeader

def ofInts (w : ℕ → ℤ) : NoffHeader :=
  ⟨w 0, ⟨w 1, w 2, w 3⟩, ⟨w 4, w 5, w 6⟩, ⟨w 7, w 8, w 9⟩⟩

def ints (h : NoffHeader) : ℕ → ℤ
  | 0 => h.noffMagic
  | 1 => h.code.virtualAddr
  | 2 => h.code.inFileAddr
  | 3 => h.code.size
  | 4 => h.initData.virtualAddr
  | 5 => h.initData.inFileAddr
  | 6 => h.initData.size
  | 7 => h.uninitData.virtualAddr
  | 8 => h.uninitData.inFileAddr
  | 9 => h.uninitData.size
  | _ => 0

/-- The bytes of the header, as `main` writes them and `AddrSpace` reads them. -/
def bytes (h : NoffHeader) : List UInt8 := (List.range 40).map (Words.ofInts h.ints)

def ofBytes (f : ℕ → UInt8) : NoffHeader := ofInts fun k => int fun i => f (4 * k + i)

end NoffHeader

/-- The variables of `main`, and the bytes that it has written behind the place of the header. -/
structure Conversion where
  noffH : NoffHeader
  inNoffFile : ℤ
  fdIn : Input
  written : List UInt8

namespace Conversion

def segment (c : Conversion) (s : Section) : Segment := ⟨s.s_paddr, c.inNoffFile, s.s_size⟩

def copy (c : Conversion) (s : Section) : Except Error Conversion := do
  let (buffer, fdIn) ← (c.fdIn.lseek s.s_scnptr).read s.s_size
  .ok { c with
    fdIn := fdIn
    written := c.written ++ buffer
    inNoffFile := addInt c.inNoffFile s.s_size }

/-- One turn of the loop over the sections. -/
def step (c : Conversion) (s : Section) : Except Error Conversion :=
  if s.s_size = 0 then .ok c
  else
    match s.kind with
    | some .text => { c with noffH := { c.noffH with code := c.segment s } }.copy s
    | some .data =>
      if c.noffH.initData.size ≠ 0 then .error .dataAndRdata
      else { c with noffH := { c.noffH with initData := c.segment s } }.copy s
    | some .bss =>
      let u := c.noffH.uninitData
      if u.size ≠ 0 then
        -- the test is for adjacent sections, although these are the ones that could be joined
        if s.s_paddr = addInt u.virtualAddr u.size then .error .bssAndSbss
        else .ok { c with noffH :=
          { c.noffH with uninitData := { u with size := addInt u.size s.s_size } } }
      else .ok { c with noffH :=
        { c.noffH with uninitData := { u with virtualAddr := s.s_paddr, size := s.s_size } } }
    | none => .error (.unknownSegment s.s_name)

/-- The variables before the loop. The rest of the header is what was on the stack. -/
def start (stack : ℕ → UInt8) (fdIn : Input) : Conversion :=
  let noffH := NoffHeader.ofBytes stack
  { noffH :=
      { noffMagic := NOFFMAGIC
        code := { noffH.code with size := 0 }
        initData := { noffH.initData with size := 0 }
        uninitData := { noffH.uninitData with size := 0 } }
    inNoffFile := 40
    fdIn := fdIn
    written := [] }

end Conversion

/-- `main` of `coff2noff`: the NOFF file, which is removed again after an error. -/
def coff2noff (file : List UInt8) (stack : ℕ → UInt8) : Except Error (List UInt8) := do
  let (sections, fdIn) ← readSections file
  let c ← sections.foldlM Conversion.step (.start stack fdIn)
  .ok (c.noffH.bytes ++ c.written)

/-! ## coff2flat -/

def StackSize : ℕ := 1024

structure Flattening where
  top : ℤ
  fdIn : Input
  written : List UInt8

namespace Flattening

/-- One turn of the loop over the sections. The bytes follow each other in the flat file, whatever
the addresses of the sections are. -/
def step (c : Flattening) (s : Section) : Except Error Flattening := do
  let sum := addInt s.s_paddr s.s_size
  let c := if c.top < sum then { c with top := sum } else c
  if !s.isNamed ".bss" && !s.isNamed ".sbss" then
    let (buffer, fdIn) ← (c.fdIn.lseek s.s_scnptr).read s.s_size
    .ok { c with fdIn := fdIn, written := c.written ++ buffer }
  else .ok c

end Flattening

end Nachos.Bin
