import LlvmGather.Gather.Tile

/-!
Functional accesses to the memory of `simple_mem.cc`. The memory answers first; then the
packet is held against those that wait in `packetQueue`, by address range. Packets that
ask for a print are left out.
-/

namespace LlvmGather

structure Overlap where
  funcOffset : Nat
  valOffset : Nat
  overlapSize : Nat
deriving DecidableEq, Repr

structure Checked where
  done : Bool
  pkt : Packet
  bytesValid : List Bool
  other : Packet
deriving DecidableEq, Repr

/-- `none` when the copy leaves one of the buffers. -/
def memcpy (target : List Byte) (start : Nat) (source : List Byte) (first count : Nat) :
    Option (List Byte) :=
  if start + count ≤ target.length ∧ first + count ≤ source.length then
    some (ByteStore.splice target start source first count)
  else none

namespace Packet

def lastAddr (pkt : Packet) : Addr := pkt.addr + BitVec.ofNat 64 pkt.size - 1

def meets (pkt other : Packet) : Bool :=
  decide (other.isSecure = pkt.isSecure ∧ pkt.addr ≤ other.lastAddr ∧ other.addr ≤ pkt.lastAddr) &&
    other.cmd.hasData

def within (pkt other : Packet) : Bool :=
  decide (other.addr ≤ pkt.addr ∧ pkt.lastAddr ≤ other.lastAddr)

-- The four cases leave none for the panic that follows them in the source. The sizes of
-- the first two stop one byte before the end of the intersection.
def partialOverlap (pkt other : Packet) : Overlap :=
  if other.addr < pkt.addr ∧ other.lastAddr ≤ pkt.lastAddr then
    ⟨0, (pkt.addr - other.addr).toNat, (other.lastAddr - pkt.addr).toNat⟩
  else if pkt.addr ≤ other.addr ∧ pkt.lastAddr < other.lastAddr then
    ⟨(other.addr - pkt.addr).toNat, 0, (pkt.lastAddr - other.addr).toNat⟩
  else if pkt.addr ≤ other.addr ∧ other.lastAddr ≤ pkt.lastAddr then
    ⟨(other.addr - pkt.addr).toNat, 0, other.size⟩
  else ⟨0, (pkt.addr - other.addr).toNat, (pkt.lastAddr - pkt.addr).toNat⟩

def readOverlap (pkt other : Packet) : Overlap :=
  if pkt.within other then ⟨0, (pkt.addr - other.addr).toNat, pkt.size⟩
  else pkt.partialOverlap other

def writeOverlap (pkt other : Packet) : Overlap :=
  let stop := if pkt.lastAddr ≤ other.lastAddr then pkt.lastAddr else other.lastAddr
  if other.addr ≤ pkt.addr then
    ⟨0, (pkt.addr - other.addr).toNat, (stop - pkt.addr).toNat + 1⟩
  else ⟨(other.addr - pkt.addr).toNat, 0, (stop - other.addr).toNat + 1⟩

/-- Whether a read has all its bytes once it has copied the overlap, and the bytes it has.
`bytesValid` is empty or has a flag for each byte of the packet. -/
def track (pkt other : Packet) (bytesValid : List Bool) : Bool × List Bool :=
  if pkt.within other then
    (true, if bytesValid.isEmpty then List.replicate pkt.size true else bytesValid)
  else
    let overlap := pkt.partialOverlap other
    let rest := overlap.funcOffset + overlap.overlapSize
    let valid := if bytesValid.isEmpty then List.replicate pkt.size false else bytesValid
    ((valid.take overlap.funcOffset).all id && (valid.drop rest).all id,
      valid.take overlap.funcOffset ++ List.replicate overlap.overlapSize true ++ valid.drop rest)

def checkRead (pkt other : Packet) (bytesValid : List Bool) : Option Checked := do
  let overlap := pkt.readOverlap other
  let data ← memcpy pkt.data overlap.funcOffset other.data overlap.valOffset overlap.overlapSize
  let tracked := pkt.track other bytesValid
  return ⟨tracked.1, { pkt with data }, tracked.2, other⟩

def checkWrite (pkt other : Packet) (bytesValid : List Bool) : Option Checked := do
  let overlap := pkt.writeOverlap other
  let data ← memcpy other.data overlap.valOffset pkt.data overlap.funcOffset overlap.overlapSize
  return ⟨false, pkt, bytesValid, { other with data }⟩

def checkFunctional (pkt other : Packet) (bytesValid : List Bool) : Option Checked :=
  if pkt.meets other then
    if pkt.cmd.isRead then pkt.checkRead other bytesValid
    else if pkt.cmd.isWrite then pkt.checkWrite other bytesValid
    else none
  else some ⟨false, pkt, bytesValid, other⟩

def checkQueue (pkt : Packet) (bytesValid : List Bool) :
    List Packet → Option (Packet × List Packet)
  | [] => some (pkt, [])
  | other :: rest => do
      let checked ← pkt.checkFunctional other bytesValid
      if checked.done then return (checked.pkt, checked.other :: rest)
      let later ← checked.pkt.checkQueue checked.bytesValid rest
      return (later.1, checked.other :: later.2)

structure Placed (pkt : Packet) : Prop where
  nonempty : 0 < pkt.size
  bound : pkt.addr.toNat + pkt.size ≤ 2 ^ 64

structure Queued (other : Packet) : Prop extends other.Placed where
  stored : other.cmd.hasData = true → other.data.length = other.size

end Packet

/-- The answer with the memory and the queue as the access leaves them. -/
def recvFunctional (mem : AbstractMemory) (queue : List Packet) (pkt : Packet)
    (bytesValid : List Bool) : Option (Packet × AbstractMemory × List Packet) := do
  let accessed ← mem.functionalAccess pkt
  let checked ← accessed.1.checkQueue bytesValid queue
  return (checked.1, accessed.2, checked.2)

namespace Packet

variable {pkt other : Packet}

theorem Placed.toNat_lastAddr (placed : pkt.Placed) :
    pkt.lastAddr.toNat = pkt.addr.toNat + pkt.size - 1 :=
  toNat_last placed.nonempty placed.bound

structure Fits (overlap : Overlap) (pkt other : Packet) : Prop where
  room : overlap.funcOffset + overlap.overlapSize ≤ pkt.size
  supply : overlap.valOffset + overlap.overlapSize ≤ other.size
  aligned : pkt.addr.toNat + overlap.funcOffset = other.addr.toNat + overlap.valOffset

section Geometry

variable (placed : pkt.Placed) (queued : other.Placed)
include placed queued

theorem meets_iff :
    pkt.meets other = true ↔
      other.isSecure = pkt.isSecure ∧ other.cmd.hasData = true ∧
        pkt.addr.toNat < other.addr.toNat + other.size ∧
        other.addr.toNat < pkt.addr.toNat + pkt.size := by
  have own := placed.nonempty
  have others := queued.nonempty
  simp only [meets, Bool.and_eq_true, decide_eq_true_eq, BitVec.le_def, placed.toNat_lastAddr,
    queued.toNat_lastAddr]
  constructor
  · rintro ⟨⟨secure, low, high⟩, data⟩
    exact ⟨secure, data, by omega, by omega⟩
  · rintro ⟨secure, data, low, high⟩
    exact ⟨⟨secure, by omega, by omega⟩, data⟩

theorem readOverlap_fits (hit : pkt.meets other = true) :
    Fits (pkt.readOverlap other) pkt other := by
  obtain ⟨-, -, low, high⟩ := (meets_iff placed queued).mp hit
  have own := placed.toNat_lastAddr
  have others := queued.toNat_lastAddr
  have bound := placed.bound
  have otherBound := queued.bound
  unfold readOverlap within partialOverlap
  split_ifs with inside before after around
  all_goals
    simp only [decide_eq_true_eq, BitVec.le_def, BitVec.lt_def] at *
    constructor <;> simp only [BitVec.toNat_sub] <;> omega

theorem writeOverlap_eq (hit : pkt.meets other = true) :
    pkt.writeOverlap other =
      ⟨other.addr.toNat - pkt.addr.toNat, pkt.addr.toNat - other.addr.toNat,
        min (pkt.addr.toNat + pkt.size) (other.addr.toNat + other.size) -
          max pkt.addr.toNat other.addr.toNat⟩ := by
  obtain ⟨-, -, low, high⟩ := (meets_iff placed queued).mp hit
  have own := placed.toNat_lastAddr
  have others := queued.toNat_lastAddr
  have positive := placed.nonempty
  have otherPositive := queued.nonempty
  have bound := placed.bound
  have otherBound := queued.bound
  unfold writeOverlap
  split_ifs with stops starts starts
  all_goals
    simp only [BitVec.le_def, Overlap.mk.injEq, BitVec.toNat_sub] at *
    omega

theorem writeOverlap_fits (hit : pkt.meets other = true) :
    Fits (pkt.writeOverlap other) pkt other := by
  obtain ⟨-, -, low, high⟩ := (meets_iff placed queued).mp hit
  rw [writeOverlap_eq placed queued hit]
  constructor <;> dsimp only <;> omega

end Geometry

def takes (pkt other : Packet) (index : Nat) : Bool :=
  pkt.meets other &&
    decide ((pkt.readOverlap other).funcOffset ≤ index ∧
      index < (pkt.readOverlap other).funcOffset + (pkt.readOverlap other).overlapSize)

def progress (pkt other : Packet) (bytesValid : List Bool) : Bool × List Bool :=
  if pkt.meets other then pkt.track other bytesValid else (false, bytesValid)

def searched (pkt : Packet) (bytesValid : List Bool) : List Packet → List Packet
  | [] => []
  | other :: rest =>
      if (pkt.progress other bytesValid).1 then [other]
      else other :: searched pkt (pkt.progress other bytesValid).2 rest

def supplier (pkt : Packet) (bytesValid : List Bool) (queue : List Packet) (index : Nat) :
    Option Packet :=
  (pkt.searched bytesValid queue).reverse.find? (pkt.takes · index)

def byteAt (pkt other : Packet) (index : Nat) : Option Byte :=
  other.data[pkt.addr.toNat + index - other.addr.toNat]?

theorem shared_of_takes (placed : pkt.Placed) (queued : other.Placed) {index : Nat}
    (taken : pkt.takes other index = true) :
    (other.isSecure = pkt.isSecure ∧ other.cmd.hasData = true) ∧
      other.addr.toNat ≤ pkt.addr.toNat + index ∧
      pkt.addr.toNat + index < other.addr.toNat + other.size := by
  simp only [takes, Bool.and_eq_true, decide_eq_true_eq] at taken
  obtain ⟨hit, low, high⟩ := taken
  obtain ⟨secure, data, -⟩ := (meets_iff placed queued).mp hit
  have fits := readOverlap_fits placed queued hit
  have aligned := fits.aligned
  have supply := fits.supply
  exact ⟨⟨secure, data⟩, by omega, by omega⟩

theorem checkFunctional_read {data : List Byte} (placed : pkt.Placed) (queued : other.Queued)
    (read : pkt.cmd.isRead = true) (length : data.length = pkt.size) (bytesValid : List Bool) :
    ∃ copied : List Byte,
      checkFunctional { pkt with data } other bytesValid =
        some ⟨(pkt.progress other bytesValid).1, { pkt with data := copied },
          (pkt.progress other bytesValid).2, other⟩ ∧
      copied.length = pkt.size ∧
      ∀ index, copied[index]? =
        if pkt.takes other index then pkt.byteAt other index else data[index]? := by
  by_cases hit : pkt.meets other = true
  · have fits := readOverlap_fits placed queued.toPlaced hit
    have stored := queued.stored ((meets_iff placed queued.toPlaced).mp hit).2.1
    have room := length ▸ fits.room
    have supply := stored ▸ fits.supply
    refine ⟨ByteStore.splice data (pkt.readOverlap other).funcOffset other.data
      (pkt.readOverlap other).valOffset (pkt.readOverlap other).overlapSize, ?_, ?_, ?_⟩
    · have here : meets { pkt with data } other = true := hit
      have copies : memcpy data (pkt.readOverlap other).funcOffset other.data
          (pkt.readOverlap other).valOffset (pkt.readOverlap other).overlapSize = some _ :=
        if_pos ⟨room, supply⟩
      rw [checkFunctional, if_pos here, if_pos read, progress, if_pos hit]
      exact congrArg (Option.bind · _) copies
    · rw [ByteStore.length_splice room supply, length]
    · intro index
      rw [ByteStore.getElem?_splice room supply]
      simp only [takes, hit, Bool.true_and, decide_eq_true_eq]
      split_ifs with inside
      · have aligned := fits.aligned
        have place : (pkt.readOverlap other).valOffset + (index - (pkt.readOverlap other).funcOffset) =
            pkt.addr.toNat + index - other.addr.toNat := by omega
        rw [byteAt, place]
      · rfl
  · refine ⟨data, ?_, length, ?_⟩
    · have apart : ¬ meets { pkt with data } other = true := hit
      rw [checkFunctional, if_neg apart, progress, if_neg hit]
    · intro index
      simp [takes, hit]

theorem supplier_response (bytesValid : List Bool) (queue : List Packet) (index : Nat) :
    supplier { pkt with cmd := .ReadResp } bytesValid queue index =
      pkt.supplier bytesValid queue index := by
  have same : searched { pkt with cmd := .ReadResp } bytesValid queue =
      pkt.searched bytesValid queue := by
    induction queue generalizing bytesValid with
    | nil => rfl
    | cons other rest ih =>
        rw [searched, searched, ih]
        rfl
  rw [supplier, same]
  rfl

theorem mem_of_supplier {bytesValid : List Bool} {queue : List Packet} {index : Nat}
    (supplied : pkt.supplier bytesValid queue index = some other) :
    other ∈ queue ∧ pkt.takes other index = true := by
  have listed : ∀ flags others, other ∈ pkt.searched flags others → other ∈ others := by
    intro flags others
    induction others generalizing flags with
    | nil => exact id
    | cons first rest ih =>
        rw [searched]
        split_ifs
        · intro member
          exact List.mem_singleton.mp member ▸ List.mem_cons_self
        · intro member
          rcases List.mem_cons.mp member with rfl | later
          · exact List.mem_cons_self
          · exact .tail _ (ih _ later)
  rw [supplier] at supplied
  have found := List.mem_of_find?_eq_some supplied
  have taken := List.find?_some supplied
  exact ⟨listed bytesValid queue (List.mem_reverse.mp found), taken⟩

theorem supplier_cons (bytesValid : List Bool) (other : Packet) (rest : List Packet)
    (index : Nat) :
    pkt.supplier bytesValid (other :: rest) index =
      if (pkt.progress other bytesValid).1 then
        if pkt.takes other index then some other else none
      else (pkt.supplier (pkt.progress other bytesValid).2 rest index).or
        (if pkt.takes other index then some other else none) := by
  rw [supplier, searched]
  split_ifs <;> simp [supplier, List.find?_append, *]

theorem checkQueue_read {queue : List Packet} {data : List Byte} (placed : pkt.Placed)
    (queued : ∀ other ∈ queue, other.Queued) (read : pkt.cmd.isRead = true)
    (length : data.length = pkt.size) (bytesValid : List Bool) :
    ∃ answer : List Byte,
      checkQueue { pkt with data } bytesValid queue = some ({ pkt with data := answer }, queue) ∧
      answer.length = pkt.size ∧
      ∀ index, answer[index]? =
        (pkt.supplier bytesValid queue index).elim data[index]? (pkt.byteAt · index) := by
  induction queue generalizing data bytesValid with
  | nil => exact ⟨data, rfl, length, fun _ => rfl⟩
  | cons other rest ih =>
      obtain ⟨copied, checks, copiedLength, bytes⟩ :=
        checkFunctional_read placed (queued other List.mem_cons_self) read length bytesValid
      by_cases done : (pkt.progress other bytesValid).1 = true
      · refine ⟨copied, ?_, copiedLength, ?_⟩
        · simp [checkQueue, checks, done]
        · intro index
          rw [bytes, supplier_cons, if_pos done]
          split_ifs <;> rfl
      · obtain ⟨answer, runs, answerLength, final⟩ :=
          ih (fun later member => queued later (.tail _ member)) copiedLength
            (pkt.progress other bytesValid).2
        refine ⟨answer, ?_, answerLength, ?_⟩
        · simp [checkQueue, checks, done, runs]
        · intro index
          rw [final, supplier_cons, if_neg done, bytes]
          cases pkt.supplier (pkt.progress other bytesValid).2 rest index with
          | some later => rfl
          | none => split_ifs <;> rfl

def overwritten (pkt other : Packet) : Packet :=
  if pkt.meets other then
    let overlap := pkt.writeOverlap other
    { other with
      data := ByteStore.splice other.data overlap.valOffset pkt.data overlap.funcOffset
        overlap.overlapSize }
  else other

section Write

variable (placed : pkt.Placed) (length : pkt.data.length = pkt.size)
include placed length

theorem checkFunctional_write (queued : other.Queued) (write : pkt.cmd = .WriteResp)
    (bytesValid : List Bool) :
    pkt.checkFunctional other bytesValid =
      some ⟨false, pkt, bytesValid, pkt.overwritten other⟩ := by
  by_cases hit : pkt.meets other = true
  · have fits := writeOverlap_fits placed queued.toPlaced hit
    have stored := queued.stored ((meets_iff placed queued.toPlaced).mp hit).2.1
    have copies : memcpy other.data (pkt.writeOverlap other).valOffset pkt.data
        (pkt.writeOverlap other).funcOffset (pkt.writeOverlap other).overlapSize = some _ :=
      if_pos ⟨stored ▸ fits.supply, length ▸ fits.room⟩
    simp +decide [checkFunctional, checkWrite, overwritten, hit, write, copies]
  · simp [checkFunctional, overwritten, hit]

theorem checkQueue_write {queue : List Packet} (queued : ∀ other ∈ queue, other.Queued)
    (write : pkt.cmd = .WriteResp) (bytesValid : List Bool) :
    pkt.checkQueue bytesValid queue = some (pkt, queue.map pkt.overwritten) := by
  induction queue with
  | nil => rfl
  | cons other rest ih =>
      have checks := checkFunctional_write placed length (queued other List.mem_cons_self) write
        bytesValid
      have later := ih fun other member => queued other (.tail _ member)
      simp [checkQueue, checks, later]

theorem getElem?_overwritten (queued : other.Queued) {index : Nat} (inside : index < other.size) :
    (pkt.overwritten other).data[index]? =
      if (other.isSecure = pkt.isSecure ∧ other.cmd.hasData = true) ∧
          pkt.addr.toNat ≤ other.addr.toNat + index ∧
          other.addr.toNat + index < pkt.addr.toNat + pkt.size then other.byteAt pkt index
      else other.data[index]? := by
  by_cases hit : pkt.meets other = true
  · obtain ⟨secure, data, low, high⟩ := (meets_iff placed queued.toPlaced).mp hit
    have fits := writeOverlap_fits placed queued.toPlaced hit
    have exact := writeOverlap_eq placed queued.toPlaced hit
    have stored := queued.stored data
    have place : pkt.addr.toNat ≤ other.addr.toNat + index →
        other.addr.toNat - pkt.addr.toNat + (index - (pkt.addr.toNat - other.addr.toNat)) =
          other.addr.toNat + index - pkt.addr.toNat := by omega
    rw [overwritten, if_pos hit]
    dsimp only
    rw [ByteStore.getElem?_splice (stored ▸ fits.supply) (length ▸ fits.room), exact]
    dsimp only
    split_ifs with copied covered covered
    · rw [byteAt, place covered.2.1]
    · exact absurd ⟨⟨secure, data⟩, by omega⟩ covered
    · omega
    · rfl
  · rw [overwritten, if_neg hit, if_neg]
    rintro ⟨⟨secure, data⟩, low, high⟩
    exact hit ((meets_iff placed queued.toPlaced).mpr ⟨secure, data, by omega, by omega⟩)

end Write

/-- The address of the qword that a byte of a gather was taken from. -/
def gatheredFrom (other : Packet) (index : Nat) : Addr :=
  gatherSource other.req.getGatherPattern (other.addr + BitVec.ofNat 64 (index / 8 * 8))

def coversQword (pkt : Packet) (source : Addr) : Prop :=
  pkt.addr.toNat < source.toNat + 8 ∧ source.toNat < pkt.addr.toNat + pkt.size

instance (pkt : Packet) (source : Addr) : Decidable (pkt.coversQword source) :=
  inferInstanceAs (Decidable (_ ∧ _))

/-- Where the other packet has an address of this one, it has the byte of the memory. -/
def HoldsMemory (pkt : Packet) (store : Nat → Byte) (other : Packet) : Prop :=
  other.isSecure = pkt.isSecure → other.cmd.hasData = true → ∀ index < pkt.size,
    other.addr.toNat ≤ pkt.addr.toNat + index →
    pkt.addr.toNat + index < other.addr.toNat + other.size →
    pkt.byteAt other index = some (store (pkt.addr.toNat + index))

structure CoveredBy (pkt other : Packet) : Prop where
  secure : other.isSecure = pkt.isSecure
  hasData : other.cmd.hasData = true
  start : other.addr.toNat ≤ pkt.addr.toNat
  stop : pkt.addr.toNat + pkt.size ≤ other.addr.toNat + other.size

theorem CoveredBy.supplier_eq (covers : pkt.CoveredBy other) (placed : pkt.Placed)
    (queued : other.Placed) {before : List Packet}
    (apart : ∀ earlier ∈ before, pkt.meets earlier = false) (after : List Packet)
    (bytesValid : List Bool) {index : Nat} (inside : index < pkt.size) :
    pkt.supplier bytesValid (before ++ other :: after) index = some other := by
  have positive := placed.nonempty
  have start := covers.start
  have stop := covers.stop
  have hit : pkt.meets other = true :=
    (meets_iff placed queued).mpr ⟨covers.secure, covers.hasData, by omega, by omega⟩
  have within : pkt.within other = true := by
    simp only [within, decide_eq_true_eq, BitVec.le_def, placed.toNat_lastAddr,
      queued.toNat_lastAddr]
    omega
  induction before with
  | nil =>
      have done : (pkt.progress other bytesValid).1 = true := by
        simp [progress, track, hit, within]
      have taken : pkt.takes other index = true := by
        simp [takes, readOverlap, hit, within, inside]
      rw [List.nil_append, supplier_cons, if_pos done, if_pos taken]
  | cons earlier rest ih =>
      obtain ⟨first, apart⟩ := List.forall_mem_cons.mp apart
      rw [List.cons_append, supplier_cons]
      simp [progress, takes, first, ih apart]

/-- The queued gathers change only where they were gathered from addresses of the packet. -/
def KeepsGathers (pkt : Packet) (queue changed : List Packet) : Prop :=
  ∀ position : Nat, ∀ other response : Packet, queue[position]? = some other →
    changed[position]? = some response → other.req.isGather = true →
    ∀ index < other.size, response.data[index]? ≠ other.data[index]? →
      pkt.coversQword (other.gatheredFrom index)

end Packet

section Queue

variable {mem : AbstractMemory} {queue : List Packet} {pkt : Packet}
variable (nonempty : 0 < pkt.size) (backed : mem.backs pkt.addr pkt.size = true)
variable (queued : ∀ other ∈ queue, other.Queued) (bytesValid : List Bool)
include nonempty backed queued

theorem recvFunctional_read (cmd : pkt.cmd = .ReadReq) (plain : pkt.req.isGather = false) :
    ∃ answer, recvFunctional mem queue pkt bytesValid = some (answer, mem, queue) ∧
      answer.data.length = pkt.size ∧
      ∀ index < pkt.size, answer.data[index]? =
        (pkt.supplier bytesValid queue index).elim (some (mem.store (pkt.addr.toNat + index)))
          (pkt.byteAt · index) := by
  have readable : mem.Readable pkt := by
    simpa [AbstractMemory.Readable, plain] using backed
  have accessed := AbstractMemory.functionalAccess_read
    (AbstractMemory.inRange_of_backs nonempty backed) readable cmd
  have placed : Packet.Placed { pkt with cmd := .ReadResp } :=
    ⟨nonempty, AbstractMemory.bound_of_backs backed⟩
  have read : MemCmd.isRead .ReadResp = true := by decide
  obtain ⟨answer, runs, length, bytes⟩ := Packet.checkQueue_read placed queued read
    (ByteStore.length_read mem.store pkt.addr.toNat pkt.size) bytesValid
  refine ⟨{ pkt with cmd := .ReadResp, data := answer }, ?_, length, fun index inside => ?_⟩
  · rw [contents, plain] at accessed
    simp [recvFunctional, accessed, runs]
  · rw [← ByteStore.getElem?_read mem.store pkt.addr.toNat inside]
    rw [← Packet.supplier_response]
    exact bytes index

theorem recvFunctional_write (cmd : pkt.cmd = .WriteReq) (length : pkt.data.length = pkt.size) :
    recvFunctional mem queue pkt bytesValid =
      some ({ pkt with cmd := .WriteResp },
        { mem with store := ByteStore.write mem.store pkt.addr.toNat pkt.data },
        queue.map pkt.overwritten) := by
  have placed : Packet.Placed { pkt with cmd := .WriteResp } :=
    ⟨nonempty, AbstractMemory.bound_of_backs backed⟩
  have accessed := AbstractMemory.functionalAccess_write nonempty backed length cmd
  have checks := Packet.checkQueue_write placed length queued rfl bytesValid
  rw [recvFunctional, accessed]
  exact congrArg (Option.bind · _) checks

theorem keepsGathers_map_iff (length : pkt.data.length = pkt.size) :
    pkt.KeepsGathers queue (queue.map pkt.overwritten) ↔
      ∀ other ∈ queue, other.req.isGather = true →
        other.isSecure = pkt.isSecure → other.cmd.hasData = true →
        ∀ index < other.size, pkt.addr.toNat ≤ other.addr.toNat + index →
          other.addr.toNat + index < pkt.addr.toNat + pkt.size →
          other.byteAt pkt index ≠ other.data[index]? →
          pkt.coversQword (other.gatheredFrom index) := by
  have placed : pkt.Placed := ⟨nonempty, AbstractMemory.bound_of_backs backed⟩
  constructor
  · intro kept other member gather secure data index inside low high differs
    obtain ⟨position, found⟩ := List.getElem?_of_mem member
    refine kept position other (pkt.overwritten other) found (by simp [found]) gather index
      inside ?_
    rw [Packet.getElem?_overwritten placed length (queued other member) inside,
      if_pos ⟨⟨secure, data⟩, low, high⟩]
    exact differs
  · intro others position other response found changed gather index inside differs
    have member := List.mem_of_getElem? found
    obtain rfl : pkt.overwritten other = response := by simpa [found] using changed
    rw [Packet.getElem?_overwritten placed length (queued other member) inside] at differs
    split_ifs at differs with covered
    · obtain ⟨⟨secure, data⟩, low, high⟩ := covered
      exact others other member gather secure data index inside low high differs
    · exact absurd rfl differs

theorem recvFunctional_current (cmd : pkt.cmd = .ReadReq) (plain : pkt.req.isGather = false)
    (holds : ∀ other ∈ queue, pkt.HoldsMemory mem.store other) {answer : Packet}
    (runs : recvFunctional mem queue pkt bytesValid = some (answer, mem, queue)) :
    answer.data = ByteStore.read mem.store pkt.addr.toNat pkt.size := by
  have placed : pkt.Placed := ⟨nonempty, AbstractMemory.bound_of_backs backed⟩
  obtain ⟨_, returns, length, bytes⟩ :=
    recvFunctional_read nonempty backed queued bytesValid cmd plain
  obtain ⟨rfl, -⟩ := Prod.mk.inj (Option.some.inj (returns.symm.trans runs))
  apply List.ext_getElem?
  intro index
  by_cases inside : index < pkt.size
  · rw [bytes index inside, ByteStore.getElem?_read _ _ inside]
    cases supplied : pkt.supplier bytesValid queue index with
    | none => rfl
    | some other =>
        obtain ⟨member, taken⟩ := Packet.mem_of_supplier supplied
        obtain ⟨⟨secure, data⟩, low, high⟩ :=
          Packet.shared_of_takes placed (queued other member).toPlaced taken
        exact holds other member secure data index inside low high
  · rw [List.getElem?_eq_none (by omega), List.getElem?_eq_none (by simpa using inside)]

theorem recvFunctional_covered (cmd : pkt.cmd = .ReadReq) (plain : pkt.req.isGather = false)
    {before after : List Packet} {other : Packet} (split : queue = before ++ other :: after)
    (apart : ∀ earlier ∈ before, pkt.meets earlier = false) (covers : pkt.CoveredBy other)
    {answer : Packet} (runs : recvFunctional mem queue pkt bytesValid = some (answer, mem, queue)) :
    answer.data = ByteStore.read mem.store pkt.addr.toNat pkt.size ↔
      pkt.HoldsMemory mem.store other := by
  have placed : pkt.Placed := ⟨nonempty, AbstractMemory.bound_of_backs backed⟩
  have member : other ∈ queue := by simp [split]
  obtain ⟨_, returns, length, bytes⟩ :=
    recvFunctional_read nonempty backed queued bytesValid cmd plain
  obtain ⟨rfl, -⟩ := Prod.mk.inj (Option.some.inj (returns.symm.trans runs))
  have supplied (index : Nat) (inside : index < pkt.size) :=
    covers.supplier_eq placed (queued other member).toPlaced apart after bytesValid inside
  rw [← split] at supplied
  constructor
  · intro same _ _ index inside _ _
    have byte := bytes index inside
    rw [same, supplied index inside, ByteStore.getElem?_read _ _ inside] at byte
    exact byte.symm
  · intro holds
    apply List.ext_getElem?
    intro index
    by_cases inside : index < pkt.size
    · have start := covers.start
      have stop := covers.stop
      rw [bytes index inside, supplied index inside, ByteStore.getElem?_read _ _ inside]
      exact holds covers.secure covers.hasData index inside (by omega) (by omega)
    · rw [List.getElem?_eq_none (by omega), List.getElem?_eq_none (by simpa using inside)]

/-- A functional read gets the bytes of the memory if every queued packet has them where its
range meets that of the read; where the first packet that meets the read covers it, only if
that packet has them. A functional write keeps to the qwords gathered from what it writes,
whatever it writes, exactly if the slots in its range were gathered from there. -/
theorem recvFunctional_iff :
    (pkt.cmd = .ReadReq → pkt.req.isGather = false →
      ∃ answer, recvFunctional mem queue pkt bytesValid = some (answer, mem, queue) ∧
        ((∀ other ∈ queue, pkt.HoldsMemory mem.store other) →
          answer.data = ByteStore.read mem.store pkt.addr.toNat pkt.size) ∧
        ∀ before other after, queue = before ++ other :: after →
          (∀ earlier ∈ before, pkt.meets earlier = false) → pkt.CoveredBy other →
          (answer.data = ByteStore.read mem.store pkt.addr.toNat pkt.size ↔
            pkt.HoldsMemory mem.store other)) ∧
    (pkt.cmd = .WriteReq →
      ((∀ data : List Byte, data.length = pkt.size → ∃ answer written changed,
        recvFunctional mem queue { pkt with data } bytesValid = some (answer, written, changed) ∧
          pkt.KeepsGathers queue changed) ↔
        ∀ other ∈ queue, other.req.isGather = true → other.isSecure = pkt.isSecure →
          other.cmd.hasData = true → ∀ index < other.size,
            pkt.addr.toNat ≤ other.addr.toNat + index →
            other.addr.toNat + index < pkt.addr.toNat + pkt.size →
            pkt.coversQword (other.gatheredFrom index))) := by
  refine ⟨fun cmd plain => ?_, fun cmd => ⟨fun keeps => ?_, fun sources data length => ?_⟩⟩
  · obtain ⟨answer, runs, -⟩ := recvFunctional_read nonempty backed queued bytesValid cmd plain
    exact ⟨answer, runs,
      fun holds => recvFunctional_current nonempty backed queued bytesValid cmd plain holds runs,
      fun before other after split apart covers =>
        recvFunctional_covered nonempty backed queued bytesValid cmd plain split apart covers runs⟩
  · intro other member gather secure hasData index inside low high
    obtain ⟨byte, found⟩ : ∃ byte, other.data[index]? = some byte :=
      ⟨_, List.getElem?_eq_getElem (by rwa [(queued other member).stored hasData])⟩
    -- Any byte other than the queued one shows whether the slot is written.
    let write : Packet := { pkt with data := List.replicate pkt.size (byte + 1) }
    have filled : 0 < write.size := nonempty
    have own : mem.backs write.addr write.size = true := backed
    have length : write.data.length = write.size := List.length_replicate
    obtain ⟨answer, written, changed, runs, kept⟩ := keeps write.data length
    have returns := recvFunctional_write filled own queued bytesValid cmd length
    obtain ⟨-, -, rfl⟩ : _ ∧ _ ∧ queue.map write.overwritten = changed := by
      simpa using returns.symm.trans runs
    have changes := (keepsGathers_map_iff filled own queued length).mp kept
    refine changes other member gather secure hasData index inside low high ?_
    have place : other.addr.toNat + index - pkt.addr.toNat < pkt.size := by omega
    have byteThere : other.byteAt write index = some (byte + 1) := by
      simp [Packet.byteAt, write, place]
    rw [byteThere, found, Ne, Option.some_inj]
    bv_omega
  · let write : Packet := { pkt with data }
    have filled : 0 < write.size := nonempty
    have own : mem.backs write.addr write.size = true := backed
    refine ⟨_, _, _, recvFunctional_write filled own queued bytesValid cmd length, ?_⟩
    refine (keepsGathers_map_iff filled own queued length).mpr ?_
    intro other member gather secure hasData index inside low high _
    exact sources other member gather secure hasData index inside low high

end Queue

def waitingColumn (addr : Addr) (size : Nat) : Packet :=
  { columnRead addr size with
    cmd := .ReadResp
    data := contents sampleTile.store (columnRead addr size).req addr size }

def plainRead (addr : Addr) : Packet := Packet.new (Request.ofPhys addr 8 0) .ReadReq

def plainWrite (addr : Addr) : Packet :=
  { Packet.new (Request.ofPhys addr 8 0) .WriteReq with data := List.replicate 8 255 }

theorem queued_waitingColumn :
    ∀ other ∈ [waitingColumn 0 16], other.Queued := by
  intro other member
  obtain rfl := List.mem_singleton.mp member
  exact ⟨⟨by decide, by decide⟩, fun _ => by decide⟩

theorem recvFunctional_iff_waitingColumn :
    (∃ answer, recvFunctional sampleTile [waitingColumn 0 16] (plainRead 0) [] =
        some (answer, sampleTile, [waitingColumn 0 16]) ∧
      answer.data = ByteStore.read sampleTile.store 0 8) ∧
    ∃ answer written changed, recvFunctional sampleTile [waitingColumn 0 16] (plainWrite 0) [] =
        some (answer, written, changed) ∧
      (plainWrite 0).KeepsGathers [waitingColumn 0 16] changed := by
  constructor
  · obtain ⟨answer, runs, current, -⟩ := (recvFunctional_iff (by decide : 0 < (plainRead 0).size)
      (by decide : sampleTile.backs 0 8 = true) queued_waitingColumn []).1 rfl (by decide)
    refine ⟨answer, runs, current ?_⟩
    intro other member _ _ index inside _ _
    obtain rfl := List.mem_singleton.mp member
    have bytes : ∀ index < 8, (plainRead 0).byteAt (waitingColumn 0 16) index =
        some (sampleTile.store ((plainRead 0).addr.toNat + index)) := by decide
    exact bytes index inside
  · refine ((recvFunctional_iff (by decide : 0 < (plainWrite 0).size)
      (by decide : sampleTile.backs 0 8 = true) queued_waitingColumn []).2 rfl).mpr ?_
      (plainWrite 0).data rfl
    intro other member _ _ _ index _ _ high
    obtain rfl := List.mem_singleton.mp member
    have own : ∀ index < 8,
        (plainWrite 0).coversQword ((waitingColumn 0 16).gatheredFrom index) := by decide
    have start : (waitingColumn 0 16).addr.toNat = 0 := rfl
    have stop : (plainWrite 0).addr.toNat + (plainWrite 0).size = 8 := rfl
    exact own index (by omega)

/-- The second qword of the column comes from address 64. A functional read of address 8 gets
it in place of the qword there, and a functional write to address 8 replaces it. -/
theorem recvFunctional_nominal :
    (sampleTile.access (columnRead 0 16)).map Prod.fst = some (waitingColumn 0 16) ∧
    (recvFunctional sampleTile [waitingColumn 0 16] (plainRead 8) []).map (·.1.data) =
      some (List.replicate 8 8) ∧
    ByteStore.read sampleTile.store 8 8 = List.replicate 8 1 ∧
    ∃ outcome, recvFunctional sampleTile [waitingColumn 0 16] (plainWrite 8) [] = some outcome ∧
      ¬ (plainWrite 8).KeepsGathers [waitingColumn 0 16] outcome.2.2 := by
  refine ⟨by decide, by decide, by decide, ?_⟩
  have runs : (recvFunctional sampleTile [waitingColumn 0 16] (plainWrite 8) []).map (·.2.2) =
      some [{ waitingColumn 0 16 with data := List.replicate 8 0 ++ List.replicate 8 255 }] := by
    decide
  obtain ⟨outcome, found, changed⟩ := Option.map_eq_some_iff.mp runs
  refine ⟨outcome, found, fun keeps => ?_⟩
  rw [changed] at keeps
  exact absurd (keeps 0 _ _ rfl rfl (by decide) 8 (by decide) (by decide)) (by decide)

end LlvmGather
