import LlvmGather.Gather.Request
import LlvmGather.Library.Machine
import LlvmGather.Library.Memo

/-!
The page table of an emulated process, `page_table.cc`: a map from pages to entries with
three remembered entries in front of it. The entries are those of x86. `none` stands for a
failed assertion or a call of `fatal`.
-/

namespace LlvmGather

def PageShift : Nat := 12

def pageSize : Nat := 2 ^ PageShift

structure TlbEntry where
  paddr : Addr
  vaddr : Addr
  logBytes : Nat
  writable : Bool
  user : Bool
  uncacheable : Bool
  global : Bool
  patBit : Bool
  noExec : Bool
deriving DecidableEq, Repr

namespace TlbEntry

def new (vaddr paddr : Addr) (uncacheable readOnly : Bool) : TlbEntry where
  paddr := paddr
  vaddr := vaddr
  logBytes := PageShift
  writable := !readOnly
  user := true
  uncacheable := uncacheable
  global := false
  patBit := false
  noExec := false

def updateVaddr (entry : TlbEntry) (newVaddr : Addr) : TlbEntry := { entry with vaddr := newVaddr }

def pageStart (entry : TlbEntry) : Addr := entry.paddr

end TlbEntry

def pageAlign (addr : Addr) : Addr := addr &&& ~~~ Mask.low 64 PageShift

def pageOffset (addr : Addr) : Addr := addr &&& Mask.low 64 PageShift

/-- The number of rounds of the loops that count `size` down by the size of a page. -/
def pageCount (size : Int) : Nat := (size.toNat + (pageSize - 1)) / pageSize

def Clobber : BitVec 64 := 1
def Uncacheable : BitVec 64 := 4
def ReadOnly : BitVec 64 := 8

structure FuncPageTable where
  pTable : Addr → Option TlbEntry
  pTableCache : List (Option (Addr × TlbEntry))

namespace FuncPageTable

def empty : FuncPageTable where
  pTable _ := none
  pTableCache := [none, none, none]

def updateCache (pt : FuncPageTable) (vaddr : Addr) (entry : TlbEntry) : FuncPageTable :=
  { pt with pTableCache := Memo.push pt.pTableCache vaddr entry }

def eraseCacheEntry (pt : FuncPageTable) (vaddr : Addr) : FuncPageTable :=
  { pt with pTableCache := Memo.forget pt.pTableCache vaddr }

def store (pt : FuncPageTable) (vaddr : Addr) (entry : Option TlbEntry) : FuncPageTable :=
  { pt with pTable := Function.update pt.pTable vaddr entry }

def mapPage (flags : BitVec 64) (vaddr paddr : Addr) (pt : FuncPageTable) :
    Option FuncPageTable := do
  guard (flags &&& Clobber ≠ 0 ∨ pt.pTable vaddr = none)
  let entry := TlbEntry.new vaddr paddr (flags &&& Uncacheable ≠ 0) (flags &&& ReadOnly ≠ 0)
  return ((pt.store vaddr (some entry)).eraseCacheEntry vaddr).updateCache vaddr entry

def mapPages (flags : BitVec 64) : Nat → Addr → Addr → FuncPageTable → Option FuncPageTable
  | 0, _, _, pt => some pt
  | count + 1, vaddr, paddr, pt => do
      let mapped ← mapPage flags vaddr paddr pt
      mapPages flags count (vaddr + BitVec.ofNat 64 pageSize) (paddr + BitVec.ofNat 64 pageSize)
        mapped

def map (pt : FuncPageTable) (vaddr paddr : Addr) (size : Int) (flags : BitVec 64) :
    Option FuncPageTable := do
  guard (pageOffset vaddr = 0)
  mapPages flags (pageCount size) vaddr paddr pt

/-- Moves one page. With the page as its own target the entry would be read after it was
erased, so that its contents are not determined. The entry that the target had is replaced
in the table, but not forgotten. -/
def remapPage (vaddr newVaddr : Addr) (pt : FuncPageTable) : Option FuncPageTable := do
  let entry ← pt.pTable vaddr
  guard (newVaddr ≠ vaddr)
  let moved := entry.updateVaddr newVaddr
  return (((pt.store newVaddr (some moved)).store vaddr none).eraseCacheEntry vaddr).updateCache
    newVaddr moved

def remapPages : Nat → Addr → Addr → FuncPageTable → Option FuncPageTable
  | 0, _, _, pt => some pt
  | count + 1, vaddr, newVaddr, pt => do
      let moved ← remapPage vaddr newVaddr pt
      remapPages count (vaddr + BitVec.ofNat 64 pageSize) (newVaddr + BitVec.ofNat 64 pageSize)
        moved

def remap (pt : FuncPageTable) (vaddr : Addr) (size : Int) (newVaddr : Addr) :
    Option FuncPageTable := do
  guard (pageOffset vaddr = 0)
  guard (pageOffset newVaddr = 0)
  remapPages (pageCount size) vaddr newVaddr pt

def unmapPage (vaddr : Addr) (pt : FuncPageTable) : Option FuncPageTable := do
  guard (pt.pTable vaddr ≠ none)
  return (pt.store vaddr none).eraseCacheEntry vaddr

def unmapPages : Nat → Addr → FuncPageTable → Option FuncPageTable
  | 0, _, pt => some pt
  | count + 1, vaddr, pt => do
      let cleared ← unmapPage vaddr pt
      unmapPages count (vaddr + BitVec.ofNat 64 pageSize) cleared

def unmap (pt : FuncPageTable) (vaddr : Addr) (size : Int) : Option FuncPageTable := do
  guard (pageOffset vaddr = 0)
  unmapPages (pageCount size) vaddr pt

def unmappedPages (pt : FuncPageTable) : Nat → Addr → Bool
  | 0, _ => true
  | count + 1, vaddr =>
      (pt.pTable vaddr).isNone && pt.unmappedPages count (vaddr + BitVec.ofNat 64 pageSize)

def isUnmapped (pt : FuncPageTable) (vaddr : Addr) (size : Int) : Option Bool := do
  guard (pageOffset vaddr = 0)
  return pt.unmappedPages (pageCount size) vaddr

def lookup (pt : FuncPageTable) (vaddr : Addr) : Option TlbEntry × FuncPageTable :=
  let pageAddr := pageAlign vaddr
  match Memo.find pt.pTableCache pageAddr with
  | some entry => (some entry, pt)
  | none =>
      match pt.pTable pageAddr with
      | none => (none, pt)
      | some entry => (some entry, pt.updateCache pageAddr entry)

def translate (pt : FuncPageTable) (vaddr : Addr) : Option Addr × FuncPageTable :=
  let (entry, pt) := pt.lookup vaddr
  (entry.map fun entry => pageOffset vaddr + entry.pageStart, pt)

inductive Call
  | map (vaddr paddr : Addr) (size : Int) (flags : BitVec 64)
  | remap (vaddr : Addr) (size : Int) (newVaddr : Addr)
  | unmap (vaddr : Addr) (size : Int)
  | isUnmapped (vaddr : Addr) (size : Int)
  | lookup (vaddr : Addr)
  | translate (vaddr : Addr)

inductive Answer
  | unmapped (result : Bool)
  | entry (found : Option TlbEntry)
  | paddr (found : Option Addr)
deriving DecidableEq, Repr

def step (pt : FuncPageTable) : Call → Option (FuncPageTable × List Answer)
  | .map vaddr paddr size flags => do return (← pt.map vaddr paddr size flags, [])
  | .remap vaddr size newVaddr => do return (← pt.remap vaddr size newVaddr, [])
  | .unmap vaddr size => do return (← pt.unmap vaddr size, [])
  | .isUnmapped vaddr size => do return (pt, [.unmapped (← pt.isUnmapped vaddr size)])
  | .lookup vaddr => some ((pt.lookup vaddr).2, [.entry (pt.lookup vaddr).1])
  | .translate vaddr => some ((pt.translate vaddr).2, [.paddr (pt.translate vaddr).1])

end FuncPageTable

section Pages

theorem pageSize_eq : pageSize = 4096 := rfl

theorem toNat_pageSize : (BitVec.ofNat 64 pageSize).toNat = 4096 := rfl

theorem toNat_pageAlign (addr : Addr) : (pageAlign addr).toNat = addr.toNat / 4096 * 4096 :=
  Mask.toNat_clear (by decide) addr

theorem toNat_pageOffset (addr : Addr) : (pageOffset addr).toNat = addr.toNat % 4096 :=
  Mask.toNat_keep (by decide) addr

def IsPage (addr : Addr) : Prop := addr.toNat % 4096 = 0

instance (addr : Addr) : Decidable (IsPage addr) := inferInstanceAs (Decidable (_ = _))

theorem isPage_iff (addr : Addr) : pageOffset addr = 0 ↔ IsPage addr := by
  rw [← BitVec.toNat_inj, toNat_pageOffset]
  rfl

theorem isPage_pageAlign (addr : Addr) : IsPage (pageAlign addr) := by
  rw [IsPage, toNat_pageAlign, Nat.mul_mod_left]

theorem IsPage.pageAlign_eq {page : Addr} (isPage : IsPage page) : pageAlign page = page := by
  apply BitVec.eq_of_toNat_eq
  rw [IsPage] at isPage
  rw [toNat_pageAlign]
  omega

theorem IsPage.next {page : Addr} (isPage : IsPage page) :
    IsPage (page + BitVec.ofNat 64 pageSize) := by
  rw [IsPage] at isPage ⊢
  rw [BitVec.toNat_add, toNat_pageSize]
  omega

def InRegion (base : Addr) (count : Nat) (addr : Addr) : Prop :=
  (addr - base).toNat < count * pageSize

instance (base : Addr) (count : Nat) (addr : Addr) : Decidable (InRegion base count addr) :=
  inferInstanceAs (Decidable (_ < _))

variable {base page : Addr} {count : Nat}

theorem not_inRegion_zero (base addr : Addr) : ¬ InRegion base 0 addr := by
  simp [InRegion]

theorem inRegion_self (base : Addr) (count : Nat) : InRegion base (count + 1) base := by
  simp [InRegion, pageSize]

theorem inRegion_succ_iff (isPage : IsPage page) (isBase : IsPage base)
    (different : page ≠ base) :
    InRegion base (count + 1) page ↔ InRegion (base + BitVec.ofNat 64 pageSize) count page := by
  have apart : page.toNat ≠ base.toNat := fun same => different (BitVec.eq_of_toNat_eq same)
  have first := page.isLt
  have second := base.isLt
  rw [IsPage] at isPage isBase
  rw [InRegion, InRegion, BitVec.toNat_sub, BitVec.toNat_sub, BitVec.toNat_add, toNat_pageSize,
    pageSize_eq]
  omega

theorem not_inRegion_next (fits : (count + 1) * pageSize ≤ 2 ^ 64) :
    ¬ InRegion (base + BitVec.ofNat 64 pageSize) count base := by
  have bound := base.isLt
  rw [pageSize_eq] at fits
  rw [InRegion, BitVec.toNat_sub, BitVec.toNat_add, toNat_pageSize, pageSize_eq]
  omega

theorem inRegion_of_next (isPage : IsPage page) (isBase : IsPage base)
    (fits : (count + 1) * pageSize ≤ 2 ^ 64)
    (inside : InRegion (base + BitVec.ofNat 64 pageSize) count page) :
    page ≠ base ∧ InRegion base (count + 1) page := by
  have different : page ≠ base := by
    rintro rfl
    exact not_inRegion_next fits inside
  exact ⟨different, (inRegion_succ_iff isPage isBase different).mpr inside⟩

theorem inRegion_shift (other : Addr) (inside : InRegion base count page) :
    InRegion other count (other + (page - base)) := by
  rw [InRegion] at inside ⊢
  have same : other + (page - base) - other = page - base := by bv_omega
  rwa [same]

theorem shift_next (paddr vaddr page : Addr) :
    paddr + BitVec.ofNat 64 pageSize + (page - (vaddr + BitVec.ofNat 64 pageSize)) =
      paddr + (page - vaddr) := by
  generalize BitVec.ofNat 64 pageSize = size
  bv_omega

theorem inRegion_pageAlign_iff (isBase : IsPage base) (addr : Addr) :
    InRegion base count (pageAlign addr) ↔ InRegion base count addr := by
  have first := addr.isLt
  have second := base.isLt
  rw [IsPage] at isBase
  rw [InRegion, InRegion, BitVec.toNat_sub, BitVec.toNat_sub, toNat_pageAlign, pageSize_eq]
  omega

theorem pageAlign_add_pageOffset (addr : Addr) : pageAlign addr + pageOffset addr = addr := by
  apply BitVec.eq_of_toNat_eq
  have bound := addr.isLt
  rw [BitVec.toNat_add, toNat_pageAlign, toNat_pageOffset]
  omega

theorem pageOffset_shift {other : Addr} (isBase : IsPage base) (isOther : IsPage other)
    (addr : Addr) : pageOffset (other + (addr - base)) = pageOffset addr := by
  have first := addr.isLt
  have second := base.isLt
  rw [IsPage] at isBase isOther
  apply BitVec.eq_of_toNat_eq
  rw [toNat_pageOffset, toNat_pageOffset, BitVec.toNat_add, BitVec.toNat_sub]
  omega

theorem pageAlign_shift {other : Addr} (isBase : IsPage base) (isOther : IsPage other)
    (addr : Addr) : pageAlign (other + (addr - base)) = other + (pageAlign addr - base) := by
  have shifted := pageAlign_add_pageOffset (other + (addr - base))
  have own := pageAlign_add_pageOffset addr
  rw [pageOffset_shift isBase isOther] at shifted
  generalize pageAlign (other + (addr - base)) = target at shifted ⊢
  generalize pageAlign addr = page at own ⊢
  generalize pageOffset addr = offset at own shifted
  bv_omega

theorem pageCount_fits {size : Int} (bound : size < 2 ^ 63) :
    pageCount size * pageSize ≤ 2 ^ 64 := by
  rw [pageCount, pageSize_eq]
  omega

end Pages

namespace FuncPageTable

variable {pt next : FuncPageTable} {vaddr paddr newVaddr page : Addr} {count : Nat}
  {flags : BitVec 64}

def Sound (pt : FuncPageTable) : Prop := Memo.Agrees pt.pTableCache pt.pTable

theorem sound_empty : empty.Sound where
  distinct := by simp [empty]
  held key value member := by simp [empty] at member

theorem Sound.erase (sound : pt.Sound) (vaddr : Addr) (entry : Option TlbEntry) :
    ((pt.store vaddr entry).eraseCacheEntry vaddr).Sound := by
  refine (sound.forget vaddr).congr fun key member => ?_
  have different : key ≠ vaddr := by
    rintro rfl
    exact Memo.not_mem_keys_forget sound.distinct key member
  exact Function.update_of_ne different _ _

theorem Sound.lookup (sound : pt.Sound) (vaddr : Addr) :
    (pt.lookup vaddr).1 = pt.pTable (pageAlign vaddr) ∧ (pt.lookup vaddr).2.Sound ∧
      (pt.lookup vaddr).2.pTable = pt.pTable := by
  simp only [FuncPageTable.lookup]
  cases found : Memo.find pt.pTableCache (pageAlign vaddr) with
  | some entry => exact ⟨(sound.find found).symm, sound, rfl⟩
  | none =>
      cases held : pt.pTable (pageAlign vaddr) with
      | none => exact ⟨rfl, sound, rfl⟩
      | some entry =>
          exact ⟨rfl, Memo.Agrees.push sound (Memo.find_eq_none_iff.mp found) held, rfl⟩

theorem mapPage_eq_some : mapPage flags vaddr paddr pt = some next ↔
    (flags &&& Clobber ≠ 0 ∨ pt.pTable vaddr = none) ∧
    ((pt.store vaddr (some (TlbEntry.new vaddr paddr (flags &&& Uncacheable ≠ 0)
      (flags &&& ReadOnly ≠ 0)))).eraseCacheEntry vaddr).updateCache vaddr
        (TlbEntry.new vaddr paddr (flags &&& Uncacheable ≠ 0) (flags &&& ReadOnly ≠ 0)) = next := by
  simp [mapPage, Option.bind_eq_some_iff]

theorem remapPage_eq_some : remapPage vaddr newVaddr pt = some next ↔
    ∃ entry, pt.pTable vaddr = some entry ∧ newVaddr ≠ vaddr ∧
    (((pt.store newVaddr (some (entry.updateVaddr newVaddr))).store vaddr none).eraseCacheEntry
      vaddr).updateCache newVaddr (entry.updateVaddr newVaddr) = next := by
  simp [remapPage, Option.bind_eq_some_iff]

theorem remapPage_pTable (returns : remapPage vaddr newVaddr pt = some next) :
    ∃ entry, pt.pTable vaddr = some entry ∧ next.pTable vaddr = none ∧
      next.pTable newVaddr = some (entry.updateVaddr newVaddr) ∧
      ∀ page, page ≠ vaddr → page ≠ newVaddr → next.pTable page = pt.pTable page := by
  obtain ⟨entry, held, different, rfl⟩ := remapPage_eq_some.mp returns
  refine ⟨entry, held, Function.update_self _ _ _, ?_, ?_⟩
  · exact (Function.update_of_ne different _ _).trans (Function.update_self _ _ _)
  · intro page source target
    exact (Function.update_of_ne source _ _).trans (Function.update_of_ne target _ _)

theorem unmapPage_eq_some : unmapPage vaddr pt = some next ↔
    pt.pTable vaddr ≠ none ∧ (pt.store vaddr none).eraseCacheEntry vaddr = next := by
  simp [unmapPage, Option.bind_eq_some_iff]

theorem Sound.mapPage (sound : pt.Sound) (returns : mapPage flags vaddr paddr pt = some next) :
    next.Sound := by
  obtain ⟨-, rfl⟩ := mapPage_eq_some.mp returns
  exact (sound.erase vaddr _).push (Memo.not_mem_keys_forget sound.distinct vaddr)
    (Function.update_self _ _ _)

theorem Sound.unmapPage (sound : pt.Sound) (returns : unmapPage vaddr pt = some next) :
    next.Sound := by
  obtain ⟨-, rfl⟩ := unmapPage_eq_some.mp returns
  exact sound.erase vaddr none

theorem Sound.remapPage (sound : pt.Sound) (vacant : pt.pTable newVaddr = none)
    (returns : remapPage vaddr newVaddr pt = some next) : next.Sound := by
  obtain ⟨entry, -, different, rfl⟩ := remapPage_eq_some.mp returns
  have fresh := sound.absent vacant
  have stored : (pt.store newVaddr (some (entry.updateVaddr newVaddr))).Sound := by
    refine Memo.Agrees.congr sound fun key member => ?_
    have different : key ≠ newVaddr := by
      rintro rfl
      exact fresh member
    exact Function.update_of_ne different _ _
  refine (stored.erase vaddr none).push ?_ ?_
  · exact fun member => fresh ((Memo.keys_forget_sublist _ _).mem member)
  · exact (Function.update_of_ne different _ _).trans (Function.update_self _ _ _)

theorem mapPages_spec (sound : pt.Sound) (isVaddr : IsPage vaddr)
    (fits : count * pageSize ≤ 2 ^ 64) (returns : mapPages flags count vaddr paddr pt = some next) :
    next.Sound ∧ ∀ page, IsPage page → next.pTable page =
      if InRegion vaddr count page then
        some (TlbEntry.new page (paddr + (page - vaddr)) (flags &&& Uncacheable ≠ 0)
          (flags &&& ReadOnly ≠ 0))
      else pt.pTable page := by
  induction count generalizing vaddr paddr pt with
  | zero =>
      obtain rfl := Option.some.inj returns
      exact ⟨sound, fun page _ => (if_neg (not_inRegion_zero vaddr page)).symm⟩
  | succ count ih =>
      obtain ⟨mapped, first, rest⟩ := Option.bind_eq_some_iff.mp returns
      obtain ⟨kept, closed⟩ := ih (sound.mapPage first) isVaddr.next
        (le_trans (Nat.mul_le_mul_right _ (Nat.le_succ count)) fits) rest
      refine ⟨kept, fun page isPage => ?_⟩
      obtain ⟨-, rfl⟩ := mapPage_eq_some.mp first
      rw [closed page isPage]
      by_cases same : page = vaddr
      · subst same
        rw [if_neg (not_inRegion_next fits), if_pos (inRegion_self page count)]
        simp [updateCache, eraseCacheEntry, store]
      · simp only [inRegion_succ_iff isPage isVaddr same, shift_next, updateCache, eraseCacheEntry,
          store, Function.update_of_ne same]

theorem unmapPages_spec (sound : pt.Sound) (isVaddr : IsPage vaddr)
    (returns : unmapPages count vaddr pt = some next) :
    next.Sound ∧ ∀ page, IsPage page → next.pTable page =
      if InRegion vaddr count page then none else pt.pTable page := by
  induction count generalizing vaddr pt with
  | zero =>
      obtain rfl := Option.some.inj returns
      exact ⟨sound, fun page _ => (if_neg (not_inRegion_zero vaddr page)).symm⟩
  | succ count ih =>
      obtain ⟨cleared, first, rest⟩ := Option.bind_eq_some_iff.mp returns
      obtain ⟨kept, closed⟩ := ih (sound.unmapPage first) isVaddr.next rest
      refine ⟨kept, fun page isPage => ?_⟩
      obtain ⟨-, rfl⟩ := unmapPage_eq_some.mp first
      rw [closed page isPage]
      by_cases same : page = vaddr
      · subst same
        simp [inRegion_self, eraseCacheEntry, store]
      · simp only [inRegion_succ_iff isPage isVaddr same, eraseCacheEntry, store,
          Function.update_of_ne same]

structure Movable (pt : FuncPageTable) (vaddr newVaddr : Addr) (count : Nat) : Prop where
  mapped : ∀ page, IsPage page → InRegion vaddr count page → pt.pTable page ≠ none
  vacant : ∀ page, IsPage page → InRegion newVaddr count page → pt.pTable page = none

theorem Movable.apart (movable : pt.Movable vaddr newVaddr count) (isPage : IsPage page)
    (source : InRegion vaddr count page) : ¬ InRegion newVaddr count page :=
  fun target => movable.mapped page isPage source (movable.vacant page isPage target)

theorem Movable.rest (movable : pt.Movable vaddr newVaddr (count + 1)) (isVaddr : IsPage vaddr)
    (isNew : IsPage newVaddr) (fits : (count + 1) * pageSize ≤ 2 ^ 64)
    (others : ∀ page, page ≠ vaddr → page ≠ newVaddr → next.pTable page = pt.pTable page) :
    next.Movable (vaddr + BitVec.ofNat 64 pageSize) (newVaddr + BitVec.ofNat 64 pageSize)
      count where
  mapped page isPage inside := by
    obtain ⟨old, source⟩ := inRegion_of_next isPage isVaddr fits inside
    have new : page ≠ newVaddr := by
      rintro rfl
      exact movable.apart isPage source (inRegion_self _ _)
    rw [others page old new]
    exact movable.mapped page isPage source
  vacant page isPage inside := by
    obtain ⟨new, target⟩ := inRegion_of_next isPage isNew fits inside
    have old : page ≠ vaddr := by
      rintro rfl
      exact movable.apart isPage (inRegion_self _ _) target
    rw [others page old new]
    exact movable.vacant page isPage target

theorem remapPages_spec (sound : pt.Sound) (isVaddr : IsPage vaddr) (isNew : IsPage newVaddr)
    (fits : count * pageSize ≤ 2 ^ 64) (movable : pt.Movable vaddr newVaddr count)
    (returns : remapPages count vaddr newVaddr pt = some next) :
    next.Sound ∧ ∀ page, IsPage page → next.pTable page =
      if InRegion newVaddr count page then
        (pt.pTable (vaddr + (page - newVaddr))).map (TlbEntry.updateVaddr · page)
      else if InRegion vaddr count page then none
      else pt.pTable page := by
  induction count generalizing vaddr newVaddr pt with
  | zero =>
      obtain rfl := Option.some.inj returns
      exact ⟨sound, fun page _ => by
        rw [if_neg (not_inRegion_zero newVaddr page), if_neg (not_inRegion_zero vaddr page)]⟩
  | succ count ih =>
      obtain ⟨moved, first, rest⟩ := Option.bind_eq_some_iff.mp returns
      have keeps := sound.remapPage (movable.vacant newVaddr isNew (inRegion_self _ _)) first
      obtain ⟨entry, held, old, new, others⟩ := remapPage_pTable first
      obtain ⟨kept, closed⟩ := ih keeps isVaddr.next isNew.next
        (le_trans (Nat.mul_le_mul_right _ (Nat.le_succ count)) fits)
        (movable.rest isVaddr isNew fits others) rest
      refine ⟨kept, fun page isPage => ?_⟩
      rw [closed page isPage, shift_next]
      by_cases target : page = newVaddr
      · subst target
        have apart : ¬ InRegion (vaddr + BitVec.ofNat 64 pageSize) count page := fun inside =>
          movable.apart isPage (inRegion_of_next isPage isVaddr fits inside).2
            (inRegion_self _ _)
        rw [if_neg (not_inRegion_next fits), if_neg apart, if_pos (inRegion_self page count), new]
        simp [held]
      · simp only [inRegion_succ_iff isPage isNew target]
        by_cases source : page = vaddr
        · subst source
          have apart : ¬ InRegion (newVaddr + BitVec.ofNat 64 pageSize) count page := fun inside =>
            movable.apart isPage (inRegion_self _ _) (inRegion_of_next isPage isNew fits inside).2
          rw [if_neg apart, if_neg (not_inRegion_next fits), if_neg apart,
            if_pos (inRegion_self page count), old]
        · simp only [inRegion_succ_iff isPage isVaddr source, others page source target]
          by_cases inside : InRegion (newVaddr + BitVec.ofNat 64 pageSize) count page
          · obtain ⟨-, whole⟩ := inRegion_of_next isPage isNew fits inside
            have origin := inRegion_shift vaddr whole
            rw [if_pos inside, if_pos inside, others]
            · intro same
              exact target (by bv_omega)
            · intro same
              rw [same] at origin
              exact movable.apart isNew origin (inRegion_self _ _)
          · rw [if_neg inside, if_neg inside]

theorem map_eq_some {size : Int} : pt.map vaddr paddr size flags = some next ↔
    IsPage vaddr ∧ mapPages flags (pageCount size) vaddr paddr pt = some next := by
  simp [map, Option.bind_eq_some_iff, ← isPage_iff]

theorem unmap_eq_some {size : Int} : pt.unmap vaddr size = some next ↔
    IsPage vaddr ∧ unmapPages (pageCount size) vaddr pt = some next := by
  simp [unmap, Option.bind_eq_some_iff, ← isPage_iff]

theorem remap_eq_some {size : Int} : pt.remap vaddr size newVaddr = some next ↔
    IsPage vaddr ∧ IsPage newVaddr ∧
      remapPages (pageCount size) vaddr newVaddr pt = some next := by
  simp [remap, Option.bind_eq_some_iff, ← isPage_iff]

/-- Sizes are signed words of 64 bits, and pages are moved only to where none is mapped. -/
def Permitted (pt : FuncPageTable) : Call → Prop
  | .map _ _ size _ => size < 2 ^ 63
  | .remap vaddr size newVaddr => size < 2 ^ 63 ∧ pt.Movable vaddr newVaddr (pageCount size)
  | .unmap _ _ => True
  | .isUnmapped _ _ => True
  | .lookup _ => True
  | .translate _ => True

theorem step_sound {call : Call} {answers : List Answer} (sound : pt.Sound)
    (permitted : pt.Permitted call) (moved : pt.step call = some (next, answers)) :
    next.Sound := by
  cases call with
  | map vaddr paddr size flags =>
      obtain ⟨mapped, returns, same⟩ := Option.bind_eq_some_iff.mp moved
      obtain ⟨rfl, -⟩ := Prod.mk.inj (Option.some.inj same)
      obtain ⟨isVaddr, loop⟩ := map_eq_some.mp returns
      exact (mapPages_spec sound isVaddr (pageCount_fits permitted) loop).1
  | remap vaddr size newVaddr =>
      obtain ⟨remapped, returns, same⟩ := Option.bind_eq_some_iff.mp moved
      obtain ⟨rfl, -⟩ := Prod.mk.inj (Option.some.inj same)
      obtain ⟨isVaddr, isNew, loop⟩ := remap_eq_some.mp returns
      exact (remapPages_spec sound isVaddr isNew (pageCount_fits permitted.1) permitted.2 loop).1
  | unmap vaddr size =>
      obtain ⟨cleared, returns, same⟩ := Option.bind_eq_some_iff.mp moved
      obtain ⟨rfl, -⟩ := Prod.mk.inj (Option.some.inj same)
      obtain ⟨isVaddr, loop⟩ := unmap_eq_some.mp returns
      exact (unmapPages_spec sound isVaddr loop).1
  | isUnmapped vaddr size =>
      obtain ⟨result, -, same⟩ := Option.bind_eq_some_iff.mp moved
      obtain ⟨rfl, -⟩ := Prod.mk.inj (Option.some.inj same)
      exact sound
  | lookup vaddr =>
      obtain ⟨rfl, -⟩ := Prod.mk.inj (Option.some.inj moved)
      exact (sound.lookup vaddr).2.1
  | translate vaddr =>
      obtain ⟨rfl, -⟩ := Prod.mk.inj (Option.some.inj moved)
      exact (sound.lookup vaddr).2.1

theorem reachable_sound {answers : List Answer}
    (reached : Machine.Reachable step Permitted (· = empty) pt answers) : pt.Sound :=
  reached.invariant (P := fun pt _ => pt.Sound) (fun _ start => start ▸ sound_empty)
    fun _ _ _ _ _ sound permitted moved => step_sound sound permitted moved

theorem Sound.translate (sound : pt.Sound) (addr : Addr) :
    (pt.translate addr).1 =
      (pt.pTable (pageAlign addr)).map fun entry => pageOffset addr + entry.pageStart := by
  rw [← (sound.lookup addr).1]
  rfl

/-- Along every run the three remembered entries cannot be told from the table. -/
theorem lookup_exact {answers : List Answer}
    (reached : Machine.Reachable step Permitted (· = empty) pt answers) (addr : Addr) :
    (pt.lookup addr).1 = pt.pTable (pageAlign addr) ∧
      (pt.translate addr).1 =
        (pt.pTable (pageAlign addr)).map (fun entry => pageOffset addr + entry.pageStart) ∧
      (pt.lookup addr).2.pTable = pt.pTable := by
  have sound := reachable_sound reached
  exact ⟨(sound.lookup addr).1, sound.translate addr, (sound.lookup addr).2.2⟩

theorem translate_map {size : Int} (sound : pt.Sound) (bound : size < 2 ^ 63)
    (returns : pt.map vaddr paddr size flags = some next) (addr : Addr) :
    (next.translate addr).1 = if InRegion vaddr (pageCount size) addr then
      some (paddr + (addr - vaddr)) else (pt.translate addr).1 := by
  obtain ⟨isVaddr, loop⟩ := map_eq_some.mp returns
  obtain ⟨kept, closed⟩ := mapPages_spec sound isVaddr (pageCount_fits bound) loop
  rw [kept.translate, closed _ (isPage_pageAlign addr), sound.translate]
  simp only [inRegion_pageAlign_iff isVaddr]
  split
  · have whole := pageAlign_add_pageOffset addr
    simp only [TlbEntry.new, TlbEntry.pageStart, Option.map_some, Option.some.injEq]
    generalize pageAlign addr = page at whole ⊢
    generalize pageOffset addr = offset at whole ⊢
    bv_omega
  · rfl

theorem translate_unmap {size : Int} (sound : pt.Sound)
    (returns : pt.unmap vaddr size = some next) (addr : Addr) :
    (next.translate addr).1 =
      if InRegion vaddr (pageCount size) addr then none else (pt.translate addr).1 := by
  obtain ⟨isVaddr, loop⟩ := unmap_eq_some.mp returns
  obtain ⟨kept, closed⟩ := unmapPages_spec sound isVaddr loop
  rw [kept.translate, closed _ (isPage_pageAlign addr), sound.translate]
  simp only [inRegion_pageAlign_iff isVaddr]
  split <;> rfl

theorem translate_remap {size : Int} (sound : pt.Sound) (bound : size < 2 ^ 63)
    (movable : pt.Movable vaddr newVaddr (pageCount size))
    (returns : pt.remap vaddr size newVaddr = some next) (addr : Addr) :
    (next.translate addr).1 =
      if InRegion newVaddr (pageCount size) addr then
        (pt.translate (vaddr + (addr - newVaddr))).1
      else if InRegion vaddr (pageCount size) addr then none
      else (pt.translate addr).1 := by
  obtain ⟨isVaddr, isNew, loop⟩ := remap_eq_some.mp returns
  obtain ⟨kept, closed⟩ := remapPages_spec sound isVaddr isNew (pageCount_fits bound) movable loop
  rw [kept.translate, closed _ (isPage_pageAlign addr), sound.translate, sound.translate,
    pageAlign_shift isNew isVaddr, pageOffset_shift isNew isVaddr]
  simp only [inRegion_pageAlign_iff isVaddr, inRegion_pageAlign_iff isNew]
  split
  · rw [Option.map_map]
    rfl
  · split <;> rfl

/-- What the calls that change the table do to every translation: a mapped region is read
at its place in the physical memory, an unmapped one not at all, a moved one as it was
before, and all other addresses as they were. -/
theorem translations_exact {answers : List Answer}
    (reached : Machine.Reachable step Permitted (· = empty) pt answers) :
    (∀ vaddr paddr (size : Int) flags next, size < 2 ^ 63 →
      pt.map vaddr paddr size flags = some next → ∀ addr, (next.translate addr).1 =
        if InRegion vaddr (pageCount size) addr then some (paddr + (addr - vaddr))
        else (pt.translate addr).1) ∧
    (∀ vaddr (size : Int) next, pt.unmap vaddr size = some next → ∀ addr,
      (next.translate addr).1 =
        if InRegion vaddr (pageCount size) addr then none else (pt.translate addr).1) ∧
    (∀ vaddr (size : Int) newVaddr next, size < 2 ^ 63 →
      pt.Movable vaddr newVaddr (pageCount size) → pt.remap vaddr size newVaddr = some next →
      ∀ addr, (next.translate addr).1 =
        if InRegion newVaddr (pageCount size) addr then
          (pt.translate (vaddr + (addr - newVaddr))).1
        else if InRegion vaddr (pageCount size) addr then none
        else (pt.translate addr).1) := by
  have sound := reachable_sound reached
  refine ⟨?_, ?_, ?_⟩
  · intro vaddr paddr size flags next bound returns addr
    exact translate_map sound bound returns addr
  · intro vaddr size next returns addr
    exact translate_unmap sound returns addr
  · intro vaddr size newVaddr next bound movable returns addr
    exact translate_remap sound bound movable returns addr

def twoPages : FuncPageTable := (empty.map 0x1000 0x8000 8192 0).getD empty

theorem twoPages_reachable : Machine.Reachable step Permitted (· = empty) twoPages [] := by
  have permitted : empty.Permitted (.map 0x1000 0x8000 8192 0) :=
    show (8192 : Int) < 2 ^ 63 by decide
  have start : Machine.Reachable step Permitted (· = empty) empty [] := .start rfl
  have moved : empty.step (.map 0x1000 0x8000 8192 0) = some (twoPages, []) := rfl
  exact start.step _ permitted moved

theorem lookup_exact_twoPages : (twoPages.lookup 0x2010).1 = twoPages.pTable 0x2000 ∧
    (twoPages.translate 0x2010).1 = some 0x9010 := by
  obtain ⟨looked, translated, -⟩ := lookup_exact twoPages_reachable 0x2010
  exact ⟨looked, translated⟩

theorem translations_exact_twoPages : ∃ next, twoPages.unmap 0x1000 4096 = some next ∧
    (next.translate 0x1010).1 = none ∧ (next.translate 0x2010).1 = some 0x9010 := by
  obtain ⟨-, unmapped, -⟩ := translations_exact twoPages_reachable
  refine ⟨(twoPages.unmap 0x1000 4096).getD empty, rfl, ?_, ?_⟩
  · exact unmapped 0x1000 4096 _ rfl 0x1010
  · exact unmapped 0x1000 4096 _ rfl 0x2010

/-- A page that is moved onto another one hides the entry of that page among those
remembered and does not forget it. When the page is then unmapped, the first of the two
entries is forgotten, and the other one is found. -/
theorem remap_leaves_stale {entry old : TlbEntry} {other : Option (Addr × TlbEntry)}
    {rest : List (Option (Addr × TlbEntry))} (isVaddr : IsPage vaddr) (isNew : IsPage newVaddr)
    (different : newVaddr ≠ vaddr) (mapped : pt.pTable vaddr = some entry)
    (remembered : pt.pTableCache = some (newVaddr, old) :: other :: rest) :
    ∃ moved cleared, pt.remap vaddr pageSize newVaddr = some moved ∧
      moved.unmap newVaddr pageSize = some cleared ∧
      cleared.pTable newVaddr = none ∧ (cleared.lookup newVaddr).1 = some old := by
  have one : pageCount pageSize = 1 := by decide
  have movedReturns := remapPage_eq_some.mpr ⟨entry, mapped, different, rfl⟩
  generalize movedIs : (((pt.store newVaddr (some (entry.updateVaddr newVaddr))).store vaddr
    none).eraseCacheEntry vaddr).updateCache newVaddr (entry.updateVaddr newVaddr) = moved
    at movedReturns
  obtain ⟨_, -, -, present, -⟩ := remapPage_pTable movedReturns
  have slots : ∃ later, moved.pTableCache =
      some (newVaddr, entry.updateVaddr newVaddr) :: some (newVaddr, old) :: later := by
    rw [← movedIs]
    have kept : Memo.forget pt.pTableCache vaddr =
        some (newVaddr, old) :: Memo.forget (other :: rest) vaddr := by
      rw [remembered, Memo.forget, if_neg different]
    obtain ⟨first, others, split⟩ := List.exists_cons_of_ne_nil
      (Memo.forget_ne_nil vaddr (List.cons_ne_nil other rest))
    refine ⟨(first :: others).dropLast, ?_⟩
    simp only [updateCache, eraseCacheEntry, store, kept, split, Memo.push, List.dropLast_cons_cons]
  obtain ⟨later, slots⟩ := slots
  have clearedReturns := unmapPage_eq_some.mpr
    ⟨fun missing => Option.some_ne_none _ (present.symm.trans missing), rfl⟩
  refine ⟨moved, (moved.store newVaddr none).eraseCacheEntry newVaddr, ?_, ?_, ?_, ?_⟩
  · exact remap_eq_some.mpr ⟨isVaddr, isNew, by simp [one, remapPages, movedReturns]⟩
  · exact unmap_eq_some.mpr ⟨isNew, by simp [one, unmapPages, clearedReturns]⟩
  · exact Function.update_self _ _ _
  · have align : pageAlign newVaddr = newVaddr := isNew.pageAlign_eq
    simp [lookup, eraseCacheEntry, store, slots, align, Memo.forget, Memo.find]

theorem remap_leaves_stale_twoPages : ∃ moved cleared,
    twoPages.remap 0x1000 pageSize 0x2000 = some moved ∧
      moved.unmap 0x2000 pageSize = some cleared ∧
      cleared.pTable 0x2000 = none ∧
      (cleared.lookup 0x2000).1 = some (TlbEntry.new 0x2000 0x9000 false false) := by
  have isVaddr : IsPage 0x1000 := by decide
  have isNew : IsPage 0x2000 := by decide
  exact remap_leaves_stale isVaddr isNew (by decide) rfl rfl

end FuncPageTable

end LlvmGather
