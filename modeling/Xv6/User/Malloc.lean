import Xv6.Lib.Cyclic
import Xv6.Lib.Run
import Mathlib.Algebra.GroupWithZero.Nat
import Mathlib.Logic.Function.Basic

/-!
# The allocator of user programs

`malloc`, `free` and `morecore` of `umalloc.c`, loop by loop. Addresses are numbers of bytes and 0 is the null pointer; the
memory is read and written as headers. A run is a sequence of calls by a program, which may also write into the blocks it
has been given; `sbrk` may fail or give any region that is disjoint from the regions it has given before.
-/

namespace Xv6.Umalloc

abbrev HEADER : ℕ := 16

/-- `union header`. -/
structure Header where
  ptr : ℕ
  size : ℕ

/-- A region of memory, in units of a header. -/
structure Region where
  addr : ℕ
  units : ℕ

/-- The address behind `units` units at `addr`. -/
abbrev behind (addr units : ℕ) : ℕ := addr + HEADER * units

/-- Two regions have no byte in common. -/
def Region.Disjoint (r r' : Region) : Prop := behind r.addr r.units ≤ r'.addr ∨ behind r'.addr r'.units ≤ r.addr

/-- A call of `malloc`: the bytes that are wanted, and the units. -/
structure Request where
  nbytes : ℕ
  nunits : ℕ

/-- Where the program is: outside of the allocator, at the head of the loop of `malloc`, or at the head of the loop of `free`,
which `morecore` may have called for a request. `grown` says that the request has already got memory by `morecore`: the code
does not have it. -/
inductive Pc where
  | idle
  | search (r : Request) (prevp p : ℕ) (grown : Bool)
  | insert (bp p : ℕ) (back : Option Request)

/-- The memory, the allocator and the program. `live` is the headers of the blocks that the program has been given and has not
freed, `asked` how many bytes it asked for, and `regions` what `sbrk` has given: the code does not have them. -/
structure State where
  mem : ℕ → Header
  freep : ℕ
  pc : Pc
  live : Finset ℕ
  asked : ℕ → ℕ
  regions : List Region

def setPtr (mem : ℕ → Header) (p q : ℕ) : ℕ → Header := Function.update mem p ⟨q, (mem p).size⟩

def setSize (mem : ℕ → Header) (p n : ℕ) : ℕ → Header := Function.update mem p ⟨(mem p).ptr, n⟩

def addUint (m n : ℕ) : ℕ := (m + n) % 2 ^ 32

def units (nbytes : ℕ) : ℕ := ((nbytes + HEADER - 1) / HEADER + 1) % 2 ^ 32

/-- The units that `morecore` asks for. -/
def core (nunits : ℕ) : ℕ := if nunits < 4096 then 4096 else nunits

/-- The rest of `free` when the loop has ended at `p`. -/
def link (mem : ℕ → Header) (p bp : ℕ) : ℕ → Header :=
  let q := (mem p).ptr
  let mem :=
    if behind bp (mem bp).size = q then
      Function.update mem bp ⟨(mem q).ptr, addUint (mem bp).size (mem q).size⟩
    else setPtr mem bp q
  if behind p (mem p).size = bp then
    Function.update mem p ⟨(mem bp).ptr, addUint (mem p).size (mem bp).size⟩
  else setPtr mem p bp

namespace State

def malloc (base : ℕ) (s : State) (nbytes : ℕ) : State :=
  let mem := if s.freep = 0 then Function.update s.mem base ⟨base, 0⟩ else s.mem
  let freep := if s.freep = 0 then base else s.freep
  { s with mem := mem, freep := freep, pc := .search ⟨nbytes, units nbytes⟩ freep (mem freep).ptr false }

/-- `malloc` returns the block at `p`. -/
def give (s : State) (r : Request) (prevp p : ℕ) (mem : ℕ → Header) : State :=
  { s with
    mem := mem
    freep := prevp
    pc := .idle
    live := insert p s.live
    asked := Function.update s.asked p r.nbytes }

/-- `free` has linked the block; `morecore` returns `freep`, and the loop of `malloc` goes on with the block after it. -/
def linked (s : State) (bp p : ℕ) (back : Option Request) : State :=
  let mem := link s.mem p bp
  { s with
    mem := mem
    freep := p
    pc := match back with
      | none => .idle
      | some r => if p = 0 then .idle else .search r p (mem p).ptr true }

end State

/-- What happens in a step: a call, the answer of `sbrk`, a step of the code, or a write of the program. -/
inductive Event where
  | malloc (nbytes : ℕ)
  | free (bp : ℕ)
  | grant (addr : ℕ)
  | deny
  | code
  | write

/-- A step of the program, of the allocator or of `sbrk`. -/
inductive Step (base : ℕ) (s : State) : Event → State → Prop where
  | malloc {nbytes} :
    s.pc = .idle →
    nbytes < 2 ^ 30 →
    Step base s (.malloc nbytes) (s.malloc base nbytes)
  -- the block fits exactly
  | unlink {r prevp p g} :
    s.pc = .search r prevp p g →
    (s.mem p).size = r.nunits →
    Step base s .code (s.give r prevp p (setPtr s.mem prevp (s.mem p).ptr))
  -- the tail of the block is given
  | split {r prevp p g} :
    s.pc = .search r prevp p g →
    r.nunits < (s.mem p).size →
    Step base s .code
      (s.give r prevp (behind p ((s.mem p).size - r.nunits))
        (setSize (setSize s.mem p ((s.mem p).size - r.nunits)) (behind p ((s.mem p).size - r.nunits)) r.nunits))
  | next {r prevp p g} :
    s.pc = .search r prevp p g →
    (s.mem p).size < r.nunits →
    p ≠ s.freep →
    Step base s .code { s with pc := .search r p (s.mem p).ptr g }
  | deny {r prevp p g} :
    s.pc = .search r prevp p g →
    (s.mem p).size < r.nunits →
    p = s.freep →
    Step base s .deny { s with pc := .idle }
  | grant {r prevp p g hp} :
    s.pc = .search r prevp p g →
    (s.mem p).size < r.nunits →
    p = s.freep →
    (∀ x ∈ s.regions, Region.Disjoint ⟨hp, core r.nunits⟩ x) →
    Step base s (.grant hp)
      { s with
        mem := setSize s.mem hp (core r.nunits)
        regions := ⟨hp, core r.nunits⟩ :: s.regions
        pc := .insert hp s.freep (some r) }
  | free {bp} :
    s.pc = .idle →
    bp ∈ s.live →
    Step base s (.free bp) { s with live := s.live.erase bp, pc := .insert bp s.freep none }
  | walk {bp p back} :
    s.pc = .insert bp p back →
    ¬ Cyclic.Gap p (s.mem p).ptr bp →
    Step base s .code { s with pc := .insert bp (s.mem p).ptr back }
  | link {bp p back} :
    s.pc = .insert bp p back →
    Cyclic.Gap p (s.mem p).ptr bp →
    Step base s .code (s.linked bp p back)
  -- headers that overlap a block behind its own header
  | write {mem : ℕ → Header} :
    s.pc = .idle →
    (∀ q, mem q ≠ s.mem q → ∃ a ∈ s.live, q < behind a (s.mem a).size ∧ a < q) →
    Step base s .write { s with mem := mem }

/-- A program that has not called the allocator. -/
def boot (mem : ℕ → Header) : State := ⟨mem, 0, .idle, ∅, fun _ => 0, []⟩

/-- The units obtained from `morecore`. -/
def State.obtained (s : State) : ℕ := (s.regions.map Region.units).sum

end Xv6.Umalloc
