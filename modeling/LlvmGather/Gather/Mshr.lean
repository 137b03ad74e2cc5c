import LlvmGather.Gather.Cache

/-!
Miss registers, `mshr.cc`. They hold the requests that wait for a block. Times, orders and
the marks that caches leave in registers of the caches above are left out; where such a
mark decides, either decision is allowed.
-/

namespace LlvmGather

inductive TargetSource
  | FromCPU
  | FromSnoop
  | FromPrefetcher
deriving DecidableEq, Repr

structure Target where
  pkt : Packet
  source : TargetSource

structure TargetList where
  entries : List Target
  needsExclusive : Bool
  hasUpgrade : Bool

namespace TargetList

def empty : TargetList := ⟨[], false, false⟩

def add (list : TargetList) (pkt : Packet) (source : TargetSource) : TargetList :=
  let counts := source != .FromSnoop
  { entries := list.entries ++ [⟨pkt, source⟩]
    needsExclusive := list.needsExclusive || (counts && pkt.cmd.needsExclusive)
    hasUpgrade := list.hasUpgrade || (counts && (pkt.cmd.isUpgrade || pkt.cmd = .StoreCondReq)) }

end TargetList

def replaceUpgrade (pkt : Packet) : Packet :=
  match pkt.cmd with
  | .UpgradeReq => { pkt with cmd := .ReadExReq }
  | .SCUpgradeReq => { pkt with cmd := .SCUpgradeFailReq }
  | .StoreCondReq => { pkt with cmd := .StoreCondFailReq }
  | _ => pkt

def TargetList.replaceUpgrades (list : TargetList) : TargetList :=
  if list.hasUpgrade then
    { list with
      entries := list.entries.map fun target => { target with pkt := replaceUpgrade target.pkt }
      hasUpgrade := false }
  else list

structure MSHR where
  addr : Addr
  isSecure : Bool
  isUncacheable : Bool
  inService : Bool
  isForward : Bool
  pendingDirty : Bool
  postInvalidate : Bool
  postDowngrade : Bool
  targets : TargetList
  deferredTargets : TargetList

namespace MSHR

def allocate (addr : Addr) (target : Packet) : MSHR where
  addr := addr
  isSecure := target.isSecure
  isUncacheable := target.req.isUncacheable
  inService := false
  isForward := false
  pendingDirty := false
  postInvalidate := false
  postDowngrade := false
  targets := TargetList.empty.add target
    (if target.cmd = .HardPFReq then .FromPrefetcher else .FromCPU)
  deferredTargets := TargetList.empty

def getNumTargets (mshr : MSHR) : Nat :=
  mshr.targets.entries.length + mshr.deferredTargets.entries.length

def needsExclusive (mshr : MSHR) : Bool := mshr.targets.needsExclusive

def isForwardNoResponse (mshr : MSHR) : Bool :=
  mshr.getNumTargets == 1 &&
    match mshr.targets.entries.head? with
    | some target => target.source == .FromCPU && !target.pkt.cmd.needsResponse
    | none => false

/-- The register after its request went out; `some none` when it is no longer needed. -/
def markInService (mshr : MSHR) (pendingDirtyResp : Bool) : Option (Option MSHR) := do
  guard (¬ mshr.inService)
  if mshr.isForwardNoResponse then return none
  else
    return some { mshr with
      inService := true
      pendingDirty := mshr.targets.needsExclusive || pendingDirtyResp
      postInvalidate := false
      postDowngrade := false }

def allocateTarget (mshr : MSHR) (pkt : Packet) : Option MSHR := do
  guard (pkt.cmd ≠ .HardPFReq)
  let defers := mshr.inService && (!mshr.deferredTargets.entries.isEmpty || mshr.postInvalidate ||
    (pkt.cmd.needsExclusive && (!mshr.pendingDirty || mshr.postDowngrade || mshr.isForward)))
  if defers then
    let deferred := if mshr.postInvalidate then replaceUpgrade pkt else pkt
    return { mshr with deferredTargets := mshr.deferredTargets.add deferred .FromCPU }
  else return { mshr with targets := mshr.targets.add pkt .FromCPU }

def deferSnoop (mshr : MSHR) (pkt : Packet) : Option (Packet × MSHR) := do
  let kept := { mshr with targets := mshr.targets.add pkt.clearFlags .FromSnoop }
  let answered ←
    if mshr.pendingDirty then
      pkt.assertMemInhibit.map fun inhibited => { inhibited with isSupplyExclusive := true }
    else some pkt
  return (answered, { kept with
    postInvalidate := mshr.postInvalidate || pkt.cmd.needsExclusive })

/-- Whether a snoop is dealt with here. `precedes` says that the register's own request is
still buffered further down, which the snoop overtakes. -/
def handleSnoop (mshr : MSHR) (pkt : Packet) (precedes : Bool) :
    Option (Bool × Packet × MSHR) :=
  if !mshr.inService || precedes then
    if pkt.cmd.needsExclusive then
      some (false, pkt, { mshr with
        targets := mshr.targets.replaceUpgrades
        deferredTargets := mshr.deferredTargets.replaceUpgrades })
    else some (false, pkt, mshr)
  else do
    let mshr :=
      if pkt.cmd.needsExclusive then
        { mshr with deferredTargets := mshr.deferredTargets.replaceUpgrades }
      else mshr
    if mshr.postInvalidate then return (true, pkt, mshr)
    else
      let (answered, mshr) ←
        if mshr.pendingDirty || pkt.cmd.isInvalidate then mshr.deferSnoop pkt
        else some (pkt, mshr)
      if pkt.cmd.needsExclusive then return (true, answered, mshr)
      else
        return (true, { answered with sharedAsserted := true }, { mshr with postDowngrade := true })

def promoteDeferredTargets (mshr : MSHR) : Option MSHR :=
  if mshr.deferredTargets.entries.isEmpty then none
  else some { mshr with
    targets := mshr.deferredTargets
    deferredTargets := TargetList.empty }

def handleFill (mshr : MSHR) (pkt : Packet) : Option MSHR :=
  if !pkt.sharedAsserted && !(mshr.postInvalidate || mshr.postDowngrade) &&
      mshr.deferredTargets.needsExclusive then do
    guard (¬ mshr.targets.needsExclusive)
    return { mshr with
      targets := { mshr.targets with
        entries := mshr.targets.entries ++ mshr.deferredTargets.entries
        needsExclusive := true }
      deferredTargets := TargetList.empty }
  else some mshr

end MSHR

end LlvmGather
