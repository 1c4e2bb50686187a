import Tux3.Basic
import Mathlib.Logic.Function.Basic

/-!
# Versioned pointers

The version tree and the element list of `user/version.c`. Labels, counts and chunks stay
below 256, which the proofs show, so no integer wraps; a result `none` is a failed `assert`,
a call of `error`, an index outside a table, or a recursion deeper than there are versions.
-/
namespace Tux3.Version

def maxVersions : ℕ := 256

def maxChunks : ℕ := maxVersions

structure Element where
  label : ℕ
  chunk : ℕ
  deriving DecidableEq, Repr

/-- `struct version`. -/
structure Entry where
  tag : ℕ
  parent : ℕ
  used : Bool
  ghost : Bool
  present : Bool
  pathmap : Bool
  nearmap : Bool

/-- `struct sb` with the globals of the program. `childIndex` holds offsets into `children`;
the bitmaps `pathmap` and `nearmap` are sets of bits. -/
structure Sb where
  table : ℕ → Entry
  childIndex : ℕ → ℕ
  childCount : ℕ → ℕ
  children : ℕ → ℕ
  ordmap : ℕ → ℕ
  versionCount : ℕ
  activeCount : ℕ
  pathmap : ℕ → ℕ → Bool
  nearmap : ℕ → ℕ → Bool
  brood : ℕ → ℕ
  elements : List Element
  snapdata : ℕ → ℕ
  orgdata : ℕ
  allocmap : ℕ → Bool
  nextchunk : ℕ

/-- `memmove` inside an array: `n` values from `s` to `d`. -/
def vecmove (vec : ℕ → ℕ) (d s n : ℕ) : ℕ → ℕ :=
  fun i => if d ≤ i ∧ i < d + n then vec (s + (i - d)) else vec i

section
variable (sb : Sb)

def getChild (parent i : ℕ) : ℕ := sb.children (sb.childIndex parent + i)

/-- `get_child(sb, parent, i)` for `i` below the child count, the range of the child loops. -/
def Sb.kids (parent : ℕ) : List ℕ := (List.range (sb.childCount parent)).map (getChild sb parent)

def getParent (child : ℕ) : ℕ := (sb.table child).parent

def getRoot : Option ℕ := if sb.childCount 0 = 0 then none else some (sb.children 0)

def isGhost (version : ℕ) : Bool := (sb.table version).ghost

def isPresent (version : ℕ) : Bool := (sb.table version).present

def Sb.setEntry (version : ℕ) (entry : Entry) : Sb :=
  { sb with table := Function.update sb.table version entry }

/-! ## Chunks and versions -/

/-- The scan for a free chunk, with `n` tries left. -/
def freeChunkFrom : ℕ → ℕ → Option ℕ
  | 0, _ => none
  | n + 1, chunk =>
      let chunk := if chunk = maxChunks then 0 else chunk
      if sb.allocmap chunk then freeChunkFrom n (chunk + 1) else some chunk

def newChunk (data : ℕ) : Option (ℕ × Sb) := do
  let chunk ← freeChunkFrom sb maxChunks sb.nextchunk
  return (chunk, { sb with
    allocmap := Function.update sb.allocmap chunk true
    snapdata := Function.update sb.snapdata chunk data
    nextchunk := chunk + 1 })

def freeChunk (chunk : ℕ) : Option Sb :=
  if sb.allocmap chunk then some { sb with allocmap := Function.update sb.allocmap chunk false }
  else none

/-- The version taken: a free one in the table, else a new slot. -/
def newVersion (parent tag : ℕ) : Option (ℕ × Sb) := do
  let (version, sb) ←
    match (List.range' 1 (sb.versionCount - 1)).find? fun version => !(sb.table version).used with
    | some version => some (version, sb)
    | none =>
        if sb.versionCount = maxVersions then none
        else
          let last := sb.versionCount - 1
          some (sb.versionCount, { sb with
            childIndex := Function.update sb.childIndex sb.versionCount
              (if sb.versionCount = 0 then 0 else sb.childIndex last + sb.childCount last)
            versionCount := sb.versionCount + 1 })
  if sb.childCount version ≠ 0 then none
  else
    some (version, { sb.setEntry version ⟨tag, parent, true, false, false, false, false⟩ with
      activeCount := sb.activeCount + 1 })

def freeVersion (version : ℕ) : Option Sb :=
  if (sb.table version).used then
    some { sb.setEntry version { sb.table version with parent := 0, used := false } with
      activeCount := sb.activeCount - 1 }
  else none

def addElement (label chunk : ℕ) : Option Sb :=
  if sb.elements.length < maxVersions then
    some { sb with elements := sb.elements ++ [⟨label, chunk⟩] }
  else none

/-! ## Orders, paths and neighbours -/

/-- The recursion of `order_tree` and its loop over the children, in `ordmap`. -/
def orderFrom : ℕ → ℕ → ℕ → (ℕ → ℕ) → Option (ℕ → ℕ)
  | 0, _, _, _ => none
  | fuel + 1, version, order, ordmap =>
      (sb.kids version).foldlM (fun ordmap child => orderFrom fuel child (order + 1) ordmap)
        (Function.update ordmap version order)

def orderTree (version order : ℕ) : Option Sb := do
  let ordmap ← orderFrom sb maxVersions version order sb.ordmap
  return { sb with ordmap := ordmap }

/-- The loop of `need_path` from a version up to the origin. -/
def loadPath : ℕ → ℕ → (ℕ → Bool) → Option (ℕ → Bool)
  | _, 0, map => some map
  | 0, _ + 1, _ => none
  | fuel + 1, version + 1, map =>
      loadPath fuel (getParent sb (version + 1)) (Function.update map (version + 1) true)

def needPath (target : ℕ) : Option Sb :=
  if (sb.table target).pathmap then some sb
  else do
    let map ← loadPath sb maxVersions target fun _ => false
    return { sb.setEntry target { sb.table target with pathmap := true } with
      pathmap := Function.update sb.pathmap target map }

/-- The recursion of `invalidate_path`, in the table. -/
def invalidateFrom : ℕ → ℕ → (ℕ → Entry) → Option (ℕ → Entry)
  | 0, _, _ => none
  | fuel + 1, version, table =>
      if version < maxVersions ∧ (table version).used then
        (sb.kids version).foldlM (fun table child => invalidateFrom fuel child table)
          (Function.update table version { table version with pathmap := false })
      else none

def invalidatePath (version : ℕ) : Option Sb := do
  let table ← invalidateFrom sb maxVersions version sb.table
  return { sb with table := table }

/-- The element found so far and its order number. -/
def lookupStep (path : ℕ → Bool) (found : Option Element × ℕ) (e : Element) :
    Option Element × ℕ :=
  if path e.label ∧ found.2 < sb.ordmap e.label then (some e, sb.ordmap e.label) else found

def lookupElement (target : ℕ) : Option (Option Element × Sb) := do
  let sb ← needPath sb target
  return ((sb.elements.foldl (lookupStep sb (sb.pathmap target)) (none, 0)).1, sb)

def countNear (target : ℕ) : Option (ℕ × Sb) :=
  let sb :=
    if (sb.table target).nearmap then sb
    else { sb.setEntry target { sb.table target with nearmap := true } with
      nearmap := Function.update sb.nearmap target fun version =>
        (sb.kids target).contains version || version == target }
  let present := sb.elements.countP fun e => sb.nearmap target e.label
  if present ≤ sb.childCount target + 1 then some (present, sb) else none

def findElement (target : ℕ) : Option Element := sb.elements.find? fun e => e.label = target

def setPresent (flag : Bool) : Sb :=
  { sb with
    table := sb.elements.foldl (fun table e =>
      Function.update table e.label { table e.label with present := flag }) sb.table }

/-! ## Heirs -/

def heirsFrom : ℕ → ℕ → Option ℕ
  | 0, _ => none
  | fuel + 1, parent =>
      (sb.kids parent).foldlM (fun heirs child =>
        if isPresent sb child then some heirs
        else do
          let below ← heirsFrom fuel child
          return heirs + (below + if isGhost sb child then 0 else 1)) 0

def countHeirs (parent : ℕ) : Option ℕ := heirsFrom sb maxVersions parent

/-- Setting and clearing the flags leaves the table as it was. -/
def inherited (version : ℕ) : Option (ℕ × Sb) := do
  let sb := setPresent sb true
  let heirs ← countHeirs sb version
  return (heirs, setPresent sb false)

/-! ## Editing the tree -/

/-- The offset in `children` where `child` belongs among the first `count` children. -/
def findChildPos (parent child count : ℕ) : ℕ :=
  sb.childIndex parent +
    (((List.range count).map (getChild sb parent)).takeWhile fun other => other ≤ child).length

def findChild (parent child : ℕ) : Option ℕ :=
  if child ∈ sb.kids parent then some (sb.childIndex parent + (sb.kids parent).idxOf child)
  else none

def insertChild (parent child : ℕ) : Option Sb := do
  let p := findChildPos sb parent child (sb.childCount parent)
  let sb := { sb with
    children := Function.update
      (vecmove sb.children (p + 1) p (sb.versionCount - p - 1)) p child
    childIndex := fun i =>
      if parent < i ∧ i < sb.versionCount then sb.childIndex i + 1 else sb.childIndex i
    childCount := Function.update sb.childCount parent (sb.childCount parent + 1) }
  let sb := sb.setEntry child { sb.table child with parent := parent }
  let sb := sb.setEntry parent { sb.table parent with nearmap := false }
  orderTree sb (← getRoot sb) 1

def removeChild (child : ℕ) : Option Sb := do
  let parent := getParent sb child
  let p ← findChild sb parent child
  let sb := { sb with
    children := vecmove sb.children p (p + 1) (sb.versionCount - p - 1)
    childIndex := fun i =>
      if parent < i ∧ i < sb.versionCount then sb.childIndex i - 1 else sb.childIndex i
    childCount := Function.update sb.childCount parent (sb.childCount parent - 1) }
  return sb.setEntry parent { sb.table parent with nearmap := false }

def replaceChild (old new : ℕ) : Option Sb := do
  let parent := getParent sb old
  let p1 := sb.childIndex parent
  let p2 ← findChild sb parent old
  let sb := { sb with
    children := vecmove sb.children p2 (p2 + 1) (p1 + sb.childCount parent - p2 - 1) }
  let p2 := findChildPos sb parent new (sb.childCount parent - 1)
  let sb := { sb with
    children := Function.update
      (vecmove sb.children (p2 + 1) p2 (p1 + sb.childCount parent - p2 - 1)) p2 new }
  let sb := sb.setEntry new { sb.table new with parent := parent }
  let sb ← freeVersion sb old
  return sb.setEntry parent { sb.table parent with nearmap := false }

def promoteChild (child : ℕ) : Option Sb := do
  let parent := getParent sb child
  if sb.childCount parent = 1 then
    let sb ← removeChild sb child
    let sb ← replaceChild sb parent child
    let sb ← invalidatePath sb child
    orderTree sb (← getRoot sb) 1
  else none

/-! ## Deleting elements -/

/-- The walk up to a present version, at most to the origin. -/
def presentAncestor : ℕ → ℕ → Option ℕ
  | _, 0 => some 0
  | 0, _ + 1 => none
  | fuel + 1, ancestor + 1 =>
      if isPresent sb (ancestor + 1) then some (ancestor + 1)
      else presentAncestor fuel (getParent sb (ancestor + 1))

/-- The element of a ghost ancestor that lost its last heir with the target. -/
def findOrphan (target parent : ℕ) : Option (Option Element) :=
  if isPresent sb target then some none
  else do
    let ancestor ← presentAncestor sb maxVersions parent
    if ancestor ≠ 0 ∧ isGhost sb ancestor ∧ isPresent sb ancestor then
      let heirs ← countHeirs sb ancestor
      return if heirs = 0 then findElement sb ancestor else none
    else return none

/-- The `free` branch of the loop. -/
def dropElement (label chunk : ℕ) : Option Sb :=
  freeChunk (sb.setEntry label { sb.table label with present := false }) chunk

/-- `relabel` of an element to the only child of its version. -/
def inheritElement (label : ℕ) : ℕ × Sb :=
  let child := getChild sb label 0
  let sb := sb.setEntry label { sb.table label with present := false }
  (child, sb.setEntry child { sb.table child with present := true })

/-- The loop over the elements: the elements kept, and the table and chunks after it. -/
def sweep (target parent : ℕ) (kill : Option Element) :
    Sb → List Element → Option (List Element × Sb)
  | sb, [] => some ([], sb)
  | sb, e :: es => do
      let label := e.label
      if some e = kill then
        sweep target parent kill (← dropElement sb label e.chunk) es
      else if label = target ∨ label = parent then
        if sb.childCount label = sb.brood label then
          sweep target parent kill (← dropElement sb label e.chunk) es
        else if sb.childCount label = 1 then
          if (← countHeirs sb label) = 0 then
            sweep target parent kill (← dropElement sb label e.chunk) es
          else
            let (child, sb) := inheritElement sb label
            let (kept, sb) ← sweep target parent kill sb es
            return (⟨child, e.chunk⟩ :: kept, sb)
        else if 1 < sb.childCount label ∧ (← countHeirs sb label) = 0 then
          sweep target parent kill (← dropElement sb label e.chunk) es
        else
          let (kept, sb) ← sweep target parent kill sb es
          return (e :: kept, sb)
      else
        let (kept, sb) ← sweep target parent kill sb es
        return (e :: kept, sb)

/-- `parent` is 0 from the sweep on when it is no ghost. -/
def deleteElements (target parent : ℕ) : Option (Bool × Sb) := do
  let sb := { sb with
    brood := sb.elements.foldl (fun brood e =>
      Function.update brood (getParent sb e.label) (brood (getParent sb e.label) + 1)) sb.brood }
  let sb := setPresent sb true
  let kill ← findOrphan sb target parent
  let parent := if isGhost sb parent then parent else 0
  let (kept, sb) ← sweep target parent kill sb sb.elements
  let sb := setPresent { sb with elements := kept } false
  let sb := { sb with
    brood := sb.elements.foldl (fun brood e => Function.update brood (getParent sb e.label) 0)
      sb.brood }
  return (parent ≠ 0 && sb.childCount parent == 1, sb)

/-! ## External operations -/

def findTag (tag : ℕ) : Option ℕ :=
  (List.range' 1 (sb.versionCount - 1)).find? fun version =>
    !isGhost sb version && (sb.table version).tag == tag

def snapshotDelete (tag : ℕ) : Option Sb := do
  let target ← findTag sb tag
  let sb := { sb with brood := fun _ => 0 }
  let sb := sb.setEntry target { sb.table target with tag := 0, ghost := true }
  let parent := getParent sb target
  match sb.childCount target with
  | 0 =>
      let sb ← removeChild sb target
      let sb := sb.setEntry target { sb.table target with parent := 0 }
      let (promote, sb) ← deleteElements sb target parent
      let sb ← if promote then promoteChild sb (getChild sb parent 0) else some sb
      freeVersion sb target
  | 1 =>
      let (_, sb) ← deleteElements sb target parent
      promoteChild sb (getChild sb target 0)
  | _ => do
      let (_, sb) ← deleteElements sb target parent
      return sb

def snapshotOfSnapshot (tag parentTag : ℕ) : Option Sb := do
  let parent ← findTag sb parentTag
  let (child, sb) ← newVersion sb parent tag
  if sb.childCount child ≠ 0 then none
  else
    let sb ← insertChild sb parent child
    orderTree sb (← getRoot sb) 1

def snapshotOfOrigin (tag : ℕ) : Option Sb := do
  let (root, sb) ← newVersion sb 0 tag
  if sb.childCount 0 = 0 then insertChild sb 0 root
  else
    let sb ← insertChild sb root (getChild sb 0 0)
    let sb := { sb with children := Function.update sb.children 0 root }
    let sb ← invalidatePath sb root
    orderTree sb (← getRoot sb) 1

def snapshotRead (tag : ℕ) : Option (ℕ × Sb) := do
  let (found, sb) ← lookupElement sb (← findTag sb tag)
  return (found.elim sb.orgdata fun e => sb.snapdata e.chunk, sb)

/-- The walk to the nearest ancestor that is present or no ghost. -/
def ghostAncestor : ℕ → ℕ → Option ℕ
  | 0, _ => none
  | fuel + 1, ancestor =>
      if !isPresent sb ancestor && isGhost sb ancestor then ghostAncestor fuel (getParent sb ancestor)
      else some ancestor

/-- A new version for the target, which becomes a ghost. -/
def implicitVersion (target tag : ℕ) : Option (ℕ × Sb) := do
  let (child, sb) ← newVersion sb target tag
  let sb ← insertChild sb target child
  return (child, sb.setEntry target { sb.table target with ghost := true })

/-- The rest of `snapshot_write`, for a target without children. -/
def writeLeaf (target data : ℕ) : Option Sb := do
  let sb := setPresent sb true
  let ancestor ← ghostAncestor sb maxVersions (getParent sb target)
  let relabel ← if isGhost sb ancestor then (· == 1) <$> countHeirs sb ancestor else some false
  let sb := setPresent sb false
  if relabel then
    let e ← findElement sb ancestor
    return { sb with
      elements := sb.elements.map fun other =>
        if other = e then { other with label := target } else other
      snapdata := Function.update sb.snapdata e.chunk data }
  else
    let (chunk, sb) ← newChunk sb data
    let sb ← addElement sb target chunk
    return { sb with snapdata := Function.update sb.snapdata chunk data }

def snapshotWrite (tag data : ℕ) : Option Sb := do
  let target ← findTag sb tag
  let (near, sb) ← countNear sb target
  if near = sb.childCount target + 1 then
    let e ← findElement sb target
    return { sb with snapdata := Function.update sb.snapdata e.chunk data }
  else if sb.childCount target ≠ 0 then
    let (target, sb) ← implicitVersion sb target tag
    writeLeaf sb target data
  else writeLeaf sb target data

def originWrite (data : ℕ) : Option Sb := do
  let (heirs, sb) ← inherited sb 0
  if heirs ≠ 0 then
    let root ← getRoot sb
    let (chunk, sb) ← newChunk sb sb.orgdata
    let sb ← addElement sb root chunk
    return { sb with orgdata := data }
  else return { sb with orgdata := data }

end

/-- The table that holds only version 0, whose parent is `(label_t)-1`. -/
def empty (orgdata : ℕ) (snapdata : ℕ → ℕ) : Sb where
  table := fun v => ⟨0, if v = 0 then 2 ^ 16 - 1 else 0, v = 0, false, false, false, false⟩
  childIndex _ := 0
  childCount _ := 0
  children _ := 0
  ordmap _ := 0
  versionCount := 1
  activeCount := 1
  pathmap _ _ := false
  nearmap _ _ := false
  brood _ := 0
  elements := []
  snapdata := snapdata
  orgdata := orgdata
  allocmap _ := false
  nextchunk := 0

end Tux3.Version
