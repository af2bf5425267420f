import RxOs.Core.ByteView

/-!
# File-system parameters

The constants of `arch/riscv/qemu/fs.rs` and the ways in which file-system code
can stop short of returning.
-/

namespace RxOs.Params

open ByteView

def bsize : ℕ := 1024

/-- Largest number of blocks one file-system operation may log. -/
def maxOpBlocks : ℕ := 10

/-- Number of blocks of the on-disk log, header included. -/
def logSize : ℕ := maxOpBlocks * 3

def ndirect : ℕ := 12

/-- Addresses the kernel uses in an indirect block. -/
def nindirect : ℕ := bsize / 8

def bpb : ℕ := bsize * 8

def dinodeSize : ℕ := 64

def ipb : ℕ := bsize / dinodeSize

/-- The number that marks a superblock. -/
def fsMagic : UInt32 := 0x10203040

def ninode : ℕ := 50

def nfile : ℕ := 100

def nproc : ℕ := 64

def ndev : ℕ := 10

/-- Most arguments that `exec` takes. -/
def maxArg : ℕ := 32

def dirsiz : ℕ := 14

/-- Bytes of a `DirEntry`. -/
def deSize : ℕ := 16

def rootInum : UInt32 := 1

abbrev Block := Bytes bsize

/-- The panics of the file-system code, in the order of the source files. -/
inductive Panic
  | logNotCommitting
  | logFullOngoing
  | logOutOfRecording
  | logFullTransaction
  | logEndWhileCommitting
  | superBlockMagic
  | inumTooLarge
  | bitmapDoubleFree
  | bitmapOutOfBlocks
  | inodesExhausted
  | inodeCacheValid
  | inodeCacheFull
  | inodeTypeEmpty
  | notDirectory
  | fileNotReadable
  | fileNotWriteable
  | fileInvalid
  | unwrapNone
  | nameTooLong
  | indexOutOfBounds
  | addOverflow
  | subtractOverflow
  deriving DecidableEq, Repr

/-- Code that does not return either panics or goes to sleep. -/
inductive Stop
  | panic (cause : Panic)
  | sleep
  deriving DecidableEq, Repr

end RxOs.Params
