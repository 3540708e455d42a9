import Xv6.Params
import Xv6.Lib.Circular
import Xv6.Lib.Monitor

/-!
# The driver of the disk

`virtio_disk_rw` and `virtio_disk_intr` of `virtio_disk.c` as a monitor under `vdisk_lock`, and the device, which shares the
rings and the descriptors with the driver and takes no lock. The device takes heads of chains from `avail`, follows the
descriptors, and reports each head in `used` when it is done, in any order.

A process calls `virtio_disk_rw` on a buffer whose sleep lock it has, so that the calls in progress are about different
buffers. `done` is not part of the driver: it says of a head that the device has reported it since it was published.
-/

namespace Xv6.Virtio

/-- The number of descriptors (`virtio.h`). -/
abbrev NUM : ℕ := 8

abbrev VRING_DESC_F_NEXT : BitVec 16 := 1

abbrev VRING_DESC_F_WRITE : BitVec 16 := 2

abbrev VIRTIO_BLK_T_IN : ℕ := 0

abbrev VIRTIO_BLK_T_OUT : ℕ := 1

/-- What the address in a descriptor is of: nothing, `disk.ops[i]`, the data of a buffer, or `disk.info[i].status`. -/
inductive Addr (β : Type*) where
  | null
  | op (i : ℕ)
  | data (b : β)
  | status (i : ℕ)

/-- `struct virtq_desc`. -/
structure Desc (β : Type*) where
  addr : Addr β
  len : ℕ
  flags : BitVec 16
  next : ℕ

/-- The ring of heads and the index of `struct virtq_avail` and `struct virtq_used`. -/
structure Ring where
  ring : ℕ → ℕ
  idx : BitVec 16

/-- `struct virtio_blk_req`. -/
structure Req where
  type : ℕ
  reserved : ℕ
  sector : ℕ

/-- What is tracked about the chain with a head. -/
structure Info (β : Type*) where
  b : Option β
  status : UInt8

/-- `struct disk`, with `b->disk` and the sleep locks of the buffers, and what the device has of its own: how far it has looked
in `avail`, and the heads it has not yet reported. -/
structure Disk (ι β : Type*) where
  desc : ℕ → Desc β
  avail : Ring
  used : Ring
  free : ℕ → Bool
  usedIdx : BitVec 16
  info : ℕ → Info β
  ops : ℕ → Req
  disk : β → Bool
  owner : β → Option ι
  seen : BitVec 16
  inflight : List ℕ
  done : ℕ → Bool

/-- The arguments of a call of `virtio_disk_rw`. -/
structure Call (β : Type*) where
  b : β
  blockno : UInt32
  write : Bool

/-- `idx` of `virtio_disk_rw`. -/
structure Idx where
  i0 : ℕ
  i1 : ℕ
  i2 : ℕ

def Call.req {β : Type*} (c : Call β) : Req :=
  ⟨if c.write then VIRTIO_BLK_T_OUT else VIRTIO_BLK_T_IN, 0, (c.blockno * UInt32.ofNat (BSIZE / 512)).toNat⟩

variable {ι β : Type*} [DecidableEq ι] [DecidableEq β]

namespace Disk

def allocDesc (free : ℕ → Bool) : Option (ℕ × (ℕ → Bool)) :=
  ((List.range NUM).find? free).map fun i => (i, Function.update free i false)

/-- The loop of `alloc3_desc` for `n` descriptors: those it gets. -/
def alloc : ℕ → (ℕ → Bool) → List ℕ × (ℕ → Bool)
  | 0, free => ([], free)
  | n + 1, free =>
    match allocDesc free with
    | none => ([], free)
    | some (i, free) => (i :: (alloc n free).1, (alloc n free).2)

def freeDesc (d : Disk ι β) (i : ℕ) : Except String (Disk ι β) :=
  if NUM ≤ i then .error "free_desc 1"
  else if d.free i then .error "free_desc 2"
  else .ok { d with
    desc := Function.update d.desc i ⟨.null, 0, 0, 0⟩
    free := Function.update d.free i true }

/-- `virtio_disk_rw` from the format of the descriptors to the entry in `avail`. -/
def format (d : Disk ι β) (c : Call β) (x : Idx) : Disk ι β :=
  { d with
    ops := Function.update d.ops x.i0 c.req
    desc := Function.update (Function.update (Function.update d.desc
      x.i0 ⟨.op x.i0, 16, VRING_DESC_F_NEXT, x.i1⟩)
      x.i1 ⟨.data c.b, BSIZE, (if c.write then 0 else VRING_DESC_F_WRITE) ||| VRING_DESC_F_NEXT, x.i2⟩)
      x.i2 ⟨.status x.i0, 1, VRING_DESC_F_WRITE, 0⟩
    info := Function.update d.info x.i0 ⟨some c.b, 0xff⟩
    disk := Function.update d.disk c.b true
    avail := { d.avail with ring := Function.update d.avail.ring (d.avail.idx.toNat % NUM) x.i0 } }

/-- What the device finds in the chain with the head `h`: the command, the buffer, and where the status goes. -/
def request (d : Disk ι β) (h : ℕ) : Option (Req × β × ℕ) :=
  let d0 := d.desc h
  let d1 := d.desc d0.next
  let d2 := d.desc d1.next
  match d0.addr, d1.addr, d2.addr with
  | .op o, .data b, .status i =>
    if d0.flags &&& VRING_DESC_F_NEXT ≠ 0 ∧ d1.flags &&& VRING_DESC_F_NEXT ≠ 0 ∧ d2.flags &&& VRING_DESC_F_NEXT = 0 then
      some (d.ops o, b, i)
    else none
  | _, _, _ => none

end Disk

/-- The places of the two functions at which the lock is held. -/
inductive Place (β : Type*) where
  -- `alloc3_desc`, and the loop in which it gives back what it has got
  | alloc (c : Call β)
  | undo (c : Call β) (l : List ℕ)
  | undoWakeup (c : Call β) (l : List ℕ)
  | sleepFree (c : Call β)
  -- the rest of `virtio_disk_rw`
  | format (c : Call β) (x : Idx)
  | publish (c : Call β) (x : Idx)
  | wait (c : Call β) (x : Idx)
  | sleepBuf (c : Call β) (x : Idx)
  | collect (c : Call β) (x : Idx)
  -- `free_chain`
  | chain (c : Call β) (x : Idx) (i : ℕ)
  | chainWakeup (c : Call β) (x : Idx) (i : Option ℕ)
  -- the loop of `virtio_disk_intr`
  | intr
  | intrBody
  | intrWakeup (b : β)
  | intrNext
  /-- `release`. -/
  | return
  | panic (msg : String)
  /-- A null pointer has been followed. -/
  | fault

/-- The channels `&disk.free[0]` and `b`. -/
inductive Chan (β : Type*) where
  | free
  | buf (b : β)
  deriving DecidableEq

/-- What a call does at a place where it calls neither `sleep` nor `wakeup` nor `release`. -/
def act (d : Disk ι β) : Place β → Option (Place β × Disk ι β)
  | .alloc c =>
    match Disk.alloc 3 d.free with
    | ([i0, i1, i2], free) => some (.format c ⟨i0, i1, i2⟩, { d with free := free })
    | (l, free) => some (.undo c l, { d with free := free })
  | .undo c [] => some (.sleepFree c, d)
  | .undo c (i :: l) =>
    match d.freeDesc i with
    | .ok d' => some (.undoWakeup c l, d')
    | .error msg => some (.panic msg, d)
  | .format c x => some (.publish c x, d.format c x)
  | .publish c x => some (.wait c x, { d with
      avail := { d.avail with idx := d.avail.idx + 1#16 }
      done := Function.update d.done x.i0 false })
  | .wait c x => some (if d.disk c.b then .sleepBuf c x else .collect c x, d)
  | .collect c x => some (.chain c x x.i0, { d with
      info := Function.update d.info x.i0 { d.info x.i0 with b := none } })
  | .chain c x i =>
    match d.freeDesc i with
    | .ok d' => some (.chainWakeup c x
        (if (d.desc i).flags &&& VRING_DESC_F_NEXT ≠ 0 then some (d.desc i).next else none), d')
    | .error msg => some (.panic msg, d)
  | .intr => some (if d.usedIdx ≠ d.used.idx then .intrBody else .return, d)
  | .intrBody =>
    let id := d.used.ring (d.usedIdx.toNat % NUM)
    if (d.info id).status ≠ 0 then some (.panic "virtio_disk_intr status", d)
    else
      match (d.info id).b with
      | none => some (.fault, d)
      | some b => some (.intrWakeup b, { d with disk := Function.update d.disk b false })
  | .intrNext => some (.intr, { d with usedIdx := d.usedIdx + 1#16 })
  | _ => none

/-- The calls of `wakeup`. -/
inductive Wakes : Place β → Chan β → Place β → Prop where
  | undo {c l} : Wakes (.undoWakeup c l) .free (.undo c l)
  | chain {c x i} : Wakes (.chainWakeup c x (some i)) .free (.chain c x i)
  | last {c x} : Wakes (.chainWakeup c x none) .free .return
  | intr {b} : Wakes (.intrWakeup b) (.buf b) .intrNext

/-- The calls of `sleep`. -/
inductive Sleeps : Place β → Chan β → Place β → Prop where
  | free {c} : Sleeps (.sleepFree c) .free (.alloc c)
  | buf {c x} : Sleeps (.sleepBuf c x) (.buf c.b) (.wait c x)

/-- The steps of the device. -/
inductive Device : Disk ι β → Disk ι β → Prop where
  /-- It takes the next head from `avail`. -/
  | fetch {d} :
    d.seen ≠ d.avail.idx →
    Device d { d with
      seen := d.seen + 1#16
      inflight := d.inflight ++ [d.avail.ring (d.seen.toNat % NUM)] }
  /-- It has done what a chain says, writes the status and reports the head. -/
  | complete {d h r b i} (status : UInt8) :
    h ∈ d.inflight →
    d.request h = some (r, b, i) →
    Device d { d with
      info := Function.update d.info i { d.info i with status := status }
      inflight := d.inflight.erase h
      used := ⟨Function.update d.used.ring (d.used.idx.toNat % NUM) h, d.used.idx + 1#16⟩
      done := Function.update d.done h true }

/-- A process takes or gives up the sleep lock of a buffer. -/
inductive Lock (p : ι) : Disk ι β → Disk ι β → Prop where
  | acquire {d b} :
    d.owner b = none →
    Lock p d { d with owner := Function.update d.owner b (some p) }
  | release {d b} :
    d.owner b = some p →
    Lock p d { d with owner := Function.update d.owner b none }

/-- The first places of the two functions. -/
inductive Start (p : ι) (d : Disk ι β) : Place β → Prop where
  | rw {c} :
    d.owner c.b = some p →
    Start p d (.alloc c)
  | intr :
    Start p d .intr

/-- Any number of callers and of interrupt handlers; the last one is the device. -/
def driver {n : ℕ} : Monitor (Fin (n + 1)) (Disk (Fin (n + 1)) β) (Place β) (Chan β) where
  start p l d := p ≠ Fin.last n ∧ Start p d l
  act _ l d _ l' d' := act d l = some (l', d')
  wakes := Wakes
  sleeps := Sleeps
  ends l := l = .return
  free p d d' := p = Fin.last n ∧ Device d d' ∨ p ≠ Fin.last n ∧ Lock p d d'

/-- `virtio_disk_init`, with the indices of the rings anywhere and no buffer locked. -/
def virtioDiskInit (avail used : Ring) (info : ℕ → Info β) (ops : ℕ → Req) : Disk ι β where
  desc _ := ⟨.null, 0, 0, 0⟩
  avail := avail
  used := used
  free _ := true
  usedIdx := used.idx
  info := info
  ops := ops
  disk _ := false
  owner _ := none
  seen := avail.idx
  inflight := []
  done _ := false

end Xv6.Virtio
