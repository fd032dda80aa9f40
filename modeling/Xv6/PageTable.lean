import Mathlib.Data.Nat.Bitwise
import Mathlib.Tactic

/-!
# Page tables

The functions of `vm.c` that build, change, copy and free page tables, and `growproc`, on physical
memory. Memory is addressed by the number of a page frame and of a word in it, which is an entry if
the frame is a page table and four bytes if it is a page. The free list is a list here, `kend` is
the first frame behind the kernel, and `data` is the first address of the kernel's data.

Addresses and sizes are modulo `2^32`. A panic is an error with its message.
-/
namespace Xv6.PageTable
open Function (update)

def PGSIZE : ℕ := 4096

def KERNBASE : ℕ := 0x80000000

def PHYSTOP : ℕ := 0xE000000

def PTE_P : ℕ := 1

def PTE_W : ℕ := 2

def PTE_U : ℕ := 4

def PDX (va : ℕ) : ℕ := va/2^22%1024

def PTX (va : ℕ) : ℕ := va/2^12%1024

def PGADDR (d : ℕ) : ℕ := d*2^22%2^32

def PGROUNDUP (sz : ℕ) : ℕ := (sz+PGSIZE-1)%2^32/PGSIZE*PGSIZE

def PGROUNDDOWN (a : ℕ) : ℕ := a/PGSIZE*PGSIZE

def present (w : ℕ) : Bool := w%2 = 1

def frameOf (w : ℕ) : ℕ := w/PGSIZE

structure Mem where
  free : List ℕ
  cells : ℕ → ℕ → ℕ

def Mem.set (m : Mem) (f i w : ℕ) : Mem := {m with cells := update m.cells f (update (m.cells f) i w)}

/-- `memset` of a whole frame; `w` is the byte four times. -/
def Mem.fill (m : Mem) (f w : ℕ) : Mem := {m with cells := update m.cells f fun _ => w}

def kalloc (m : Mem) : Option (ℕ×Mem) :=
  match m.free with
  | [] => none
  | f::fs => some (f,{m with free := fs})

variable (kend : ℕ)

def kfree (m : Mem) (f : ℕ) : Except String Mem :=
  if f < kend ∨ f*PGSIZE ≥ PHYSTOP then .error "kfree"
  else
    let m := m.fill f 0x01010101
    .ok {m with free := f::m.free}

def walkpgdir (m : Mem) (pgdir va : ℕ) (alloc : Bool) : Option (ℕ×ℕ)×Mem :=
  let pde := m.cells pgdir (PDX va)
  if present pde then (some (frameOf pde,PTX va),m)
  else if alloc = false then (none,m)
  else match kalloc m with
  | none => (none,m)
  | some (pgtab,m) =>
    (some (pgtab,PTX va),
      (m.fill pgtab 0).set pgdir (PDX va) (pgtab*PGSIZE ||| PTE_P ||| PTE_W ||| PTE_U))

/-- The loop of `mappages`. The result is false for -1. -/
def mapLoop (pgdir perm last : ℕ) : ℕ → Mem → ℕ → ℕ → Except String (Bool×Mem)
  | 0,m,_,_ => .ok (false,m)
  | fuel+1,m,a,pa =>
    match walkpgdir m pgdir a true with
    | (none,m) => .ok (false,m)
    | (some (t,i),m) =>
      if present (m.cells t i) then .error "remap"
      else
        let m := m.set t i (pa ||| perm ||| PTE_P)
        if a = last then .ok (true,m)
        else mapLoop pgdir perm last fuel m ((a+PGSIZE)%2^32) ((pa+PGSIZE)%2^32)

/-- There are `2^20` pages, so the loop ends within as many rounds. -/
def mappages (m : Mem) (pgdir va size pa perm : ℕ) : Except String (Bool×Mem) :=
  mapLoop pgdir perm (PGROUNDDOWN ((va+size-1)%2^32)) (2^20) m (PGROUNDDOWN va) pa

def deallocLoop (pgdir oldsz : ℕ) : ℕ → Mem → ℕ → Except String Mem
  | 0,m,_ => .ok m
  | fuel+1,m,a =>
    if a < oldsz then
      match (walkpgdir m pgdir a false).1 with
      | none =>
        let a := (PGADDR (PDX a+1)+2^32-PGSIZE)%2^32
        deallocLoop pgdir oldsz fuel m ((a+PGSIZE)%2^32)
      | some (t,i) =>
        if present (m.cells t i) then
          if frameOf (m.cells t i) = 0 then .error "kfree"
          else do
            let m ← kfree kend m (frameOf (m.cells t i))
            deallocLoop pgdir oldsz fuel (m.set t i 0) ((a+PGSIZE)%2^32)
        else deallocLoop pgdir oldsz fuel m ((a+PGSIZE)%2^32)
    else .ok m

def deallocuvm (m : Mem) (pgdir oldsz newsz : ℕ) : Except String (ℕ×Mem) :=
  if newsz ≥ oldsz then .ok (oldsz,m)
  else do
    let m ← deallocLoop kend pgdir oldsz (2^20) m (PGROUNDUP newsz)
    .ok (newsz,m)

def allocLoop (pgdir oldsz newsz : ℕ) : ℕ → Mem → ℕ → Except String (ℕ×Mem)
  | 0,m,_ => .ok (newsz,m)
  | fuel+1,m,a =>
    if a < newsz then
      match kalloc m with
      | none => do
          let (_,m) ← deallocuvm kend m pgdir newsz oldsz
          .ok (0,m)
      | some (f,m) => do
          let (mapped,m) ← mappages (m.fill f 0) pgdir a PGSIZE (f*PGSIZE) (PTE_W ||| PTE_U)
          if mapped = false then do
            let (_,m) ← deallocuvm kend m pgdir newsz oldsz
            let m ← kfree kend m f
            .ok (0,m)
          else allocLoop pgdir oldsz newsz fuel m ((a+PGSIZE)%2^32)
    else .ok (newsz,m)

def allocuvm (m : Mem) (pgdir oldsz newsz : ℕ) : Except String (ℕ×Mem) :=
  if newsz ≥ KERNBASE then .ok (0,m)
  else if newsz < oldsz then .ok (oldsz,m)
  else allocLoop kend pgdir oldsz newsz (2^20) m (PGROUNDUP oldsz)

def addInt (sz : ℕ) (n : ℤ) : ℕ := ((sz+n)%2^32).toNat

/-- `growproc` of a process with size `sz`, up to `switchuvm`: its result, the size afterwards and
memory. -/
def growproc (m : Mem) (pgdir sz : ℕ) (n : ℤ) : Except String (ℤ×ℕ×Mem) :=
  if n > 0 then do
    let (sz',m) ← allocuvm kend m pgdir sz (addInt sz n)
    if sz' = 0 then .ok (-1,sz,m) else .ok (0,sz',m)
  else if n < 0 then do
    let (sz',m) ← deallocuvm kend m pgdir sz (addInt sz n)
    if sz' = 0 then .ok (-1,sz,m) else .ok (0,sz',m)
  else .ok (0,sz,m)

/-! ## Whole address spaces -/

def EXTMEM : ℕ := 0x100000

def KERNLINK : ℕ := KERNBASE+EXTMEM

def DEVSPACE : ℕ := 0xFE000000

def V2P (a : ℕ) : ℕ := (a+2^32-KERNBASE)%2^32

def NPDENTRIES : ℕ := 1024

def freeLoop (pgdir : ℕ) : ℕ → Mem → ℕ → Except String Mem
  | 0,m,_ => .ok m
  | n+1,m,i =>
    if present (m.cells pgdir i) then do
      let m ← kfree kend m (frameOf (m.cells pgdir i))
      freeLoop pgdir n m (i+1)
    else freeLoop pgdir n m (i+1)

def freevm (m : Mem) (pgdir : ℕ) : Except String Mem :=
  if pgdir = 0 then .error "freevm: no pgdir"
  else do
    let (_,m) ← deallocuvm kend m pgdir KERNBASE 0
    let m ← freeLoop kend pgdir NPDENTRIES m 0
    kfree kend m pgdir

structure Kmap where
  virt : ℕ
  physStart : ℕ
  physEnd : ℕ
  perm : ℕ

variable (data : ℕ)

def kmap : List Kmap :=
  [⟨KERNBASE,0,EXTMEM,PTE_W⟩,⟨KERNLINK,V2P KERNLINK,V2P data,0⟩,⟨data,V2P data,PHYSTOP,PTE_W⟩,
    ⟨DEVSPACE,DEVSPACE,0,PTE_W⟩]

/-- The result is false if a call of `mappages` has failed. -/
def kmapLoop (pgdir : ℕ) : List Kmap → Mem → Except String (Bool×Mem)
  | [],m => .ok (true,m)
  | k::ks,m => do
      let (mapped,m) ← mappages m pgdir k.virt ((k.physEnd+2^32-k.physStart)%2^32) k.physStart k.perm
      if mapped = false then .ok (false,m) else kmapLoop pgdir ks m

def setupkvm (m : Mem) : Except String (Option ℕ×Mem) :=
  match kalloc m with
  | none => .ok (none,m)
  | some (pgdir,m) =>
    let m := m.fill pgdir 0
    if PHYSTOP+KERNBASE > DEVSPACE then .error "PHYSTOP too high"
    else do
      let (mapped,m) ← kmapLoop pgdir (kmap data) m
      if mapped = false then do
        let m ← freevm kend m pgdir
        .ok (none,m)
      else .ok (some pgdir,m)

def clearpteu (m : Mem) (pgdir uva : ℕ) : Except String Mem :=
  match (walkpgdir m pgdir uva false).1 with
  | none => .error "clearpteu"
  | some (t,i) => .ok (m.set t i (m.cells t i &&& (0xFFFFFFFF ^^^ PTE_U)))

def PTE_FLAGS (w : ℕ) : ℕ := w%4096

def Mem.copy (m : Mem) (f g : ℕ) : Mem := {m with cells := update m.cells f (m.cells g)}

/-- The result is false where the source jumps to `bad`. -/
def copyLoop (pgdir sz d : ℕ) : ℕ → Mem → ℕ → Except String (Bool×Mem)
  | 0,m,_ => .ok (true,m)
  | fuel+1,m,i =>
    if i < sz then
      match (walkpgdir m pgdir i false).1 with
      | none => .error "copyuvm: pte should exist"
      | some (t,j) =>
        if present (m.cells t j) = false then .error "copyuvm: page not present"
        else
          let pa := frameOf (m.cells t j)
          let flags := PTE_FLAGS (m.cells t j)
          match kalloc m with
          | none => .ok (false,m)
          | some (f,m) => do
              let (mapped,m) ← mappages (m.copy f pa) d i PGSIZE (f*PGSIZE) flags
              if mapped = false then do
                let m ← kfree kend m f
                .ok (false,m)
              else copyLoop pgdir sz d fuel m ((i+PGSIZE)%2^32)
    else .ok (true,m)

def copyuvm (m : Mem) (pgdir sz : ℕ) : Except String (Option ℕ×Mem) := do
  let (d,m) ← setupkvm kend data m
  match d with
  | none => .ok (none,m)
  | some d => do
      let (copied,m) ← copyLoop kend pgdir sz d (2^20) m 0
      if copied = false then do
        let m ← freevm kend m d
        .ok (none,m)
      else .ok (some d,m)

end Xv6.PageTable
