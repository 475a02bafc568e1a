import Divers.Library.ByteMemory

/-!
# ELF structures

The fields of the structures of a little-endian ELF image that lies in memory, each given by the
address of its structure.
-/

namespace Divers.Library

def ptLoad : ℕ := 1
def pfX : ℕ := 1
def pfW : ℕ := 2
def shtRela : ℕ := 4
def shtRel : ℕ := 9
def shtDynsym : ℕ := 11
def shnUndef : ℕ := 0

/-! ## Elf32 -/

namespace Elf32

variable (m : Bytes) (a : ℕ)

def ePhoff : ℕ := loadLE m (a + 28) 4
def eShoff : ℕ := loadLE m (a + 32) 4
def ePhnum : ℕ := loadLE m (a + 44) 2
def eShnum : ℕ := loadLE m (a + 48) 2
def eShstrndx : ℕ := loadLE m (a + 50) 2

def sizeofPhdr : ℕ := 32
def pType : ℕ := loadLE m a 4
def pVaddr : ℕ := loadLE m (a + 8) 4
def pFlags : ℕ := loadLE m (a + 24) 4

def sizeofShdr : ℕ := 40
def shName : ℕ := loadLE m a 4
def shType : ℕ := loadLE m (a + 4) 4
def shOffset : ℕ := loadLE m (a + 16) 4
def shSize : ℕ := loadLE m (a + 20) 4
def shLink : ℕ := loadLE m (a + 24) 4

def sizeofSym : ℕ := 16
def stName : ℕ := loadLE m a 4
def stValue : ℕ := loadLE m (a + 4) 4
def stSize : ℕ := loadLE m (a + 8) 4
def stShndx : ℕ := loadLE m (a + 14) 2

def sizeofRel : ℕ := 8
def rOffset : ℕ := loadLE m a 4
def rInfo : ℕ := loadLE m (a + 4) 4

/-- `ELF32_R_SYM`. -/
def rSym (info : ℕ) : ℕ := info / 2 ^ 8

end Elf32

/-! ## Elf64 -/

namespace Elf64

variable (m : Bytes) (a : ℕ)

def eShoff : ℕ := loadLE m (a + 40) 8
def eShnum : ℕ := loadLE m (a + 60) 2
def eShstrndx : ℕ := loadLE m (a + 62) 2

def sizeofShdr : ℕ := 64
def shName : ℕ := loadLE m a 4
def shType : ℕ := loadLE m (a + 4) 4
def shOffset : ℕ := loadLE m (a + 24) 8
def shSize : ℕ := loadLE m (a + 32) 8
def shLink : ℕ := loadLE m (a + 40) 4

def sizeofSym : ℕ := 24
def stName : ℕ := loadLE m a 4
def stInfo : ℕ := loadLE m (a + 4) 1

/-- `ELF64_ST_BIND` and `ELF64_ST_TYPE`. -/
def stBind (info : ℕ) : ℕ := info / 2 ^ 4
def stType (info : ℕ) : ℕ := info % 2 ^ 4

def sizeofRel : ℕ := 16
def sizeofRela : ℕ := 24
def rOffset : ℕ := loadLE m a 8
def rInfo : ℕ := loadLE m (a + 8) 8

/-- `ELF64_R_SYM`. -/
def rSym (info : ℕ) : ℕ := info / 2 ^ 32

end Elf64

end Divers.Library
