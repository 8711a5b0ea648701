import Limine.Pmm.Memmap

/-!
# `pmm_sanitise_entries`

The four passes of the source over the array `m[0..count)`:

* `splitUsable`: every usable entry gives way to each other entry (`overlapLoop`, one turn of
  it is `carve`); a deletion restarts the pass from the first entry,
* `dropEmpty`: empty entries go, usable ones are clipped below `0x1000`,
* `sortEntries`: selection sort by base,
* `mergeEntries`: touching neighbours of one type become one entry.

`memmap_max_entries` and `pmm_sanitiser_keep_first_page` are parameters.
-/

namespace Limine.Pmm

open Limine.Lib

/-- `align_entry`; `none` is its `return false`. -/
def alignEntry (base length : Nat) : Option (Nat × Nat) :=
  if length < pageSize then none
  else
    match alignUp base pageSize with
    | none => none
    | some base' =>
      let length' := alignDown (length - (base' - base)) pageSize
      if length' = 0 then none else some (base', length')

/-- What entry `i` (usable) does about entry `j`. -/
inductive Carve
  /-- `goto del_mm0` -/
  | drop
  /-- `continue` -/
  | skip
  /-- the `break`, with what `m[i]` became -/
  | covered (e : MemmapEntry)
  /-- what `m[i]` becomes, and the entry appended for the part past `j`, if any -/
  | trim (e : MemmapEntry) (extra : Option MemmapEntry)
deriving DecidableEq, Repr

/-- The body of the inner loop, for `e = m[i]` and `r = m[j]`. -/
def carve (e r : MemmapEntry) : Carve :=
  match checkedAdd e.base e.length with
  | none => .drop
  | some top =>
    match checkedAdd r.base r.length with
    | none => .skip
    | some resTop =>
      if r.length = 0 then .skip
      else if r.base ≤ e.base ∧ top ≤ resTop then .covered { e with base := top, length := 0 }
      else
        let nested := (e.base ≤ r.base ∧ r.base < top) ∧ (e.base ≤ resTop ∧ resTop < top)
        let extra := if nested then some { e with base := resTop, length := top - resTop } else none
        let top := if nested then r.base else top
        let top := if e.base ≤ r.base ∧ r.base < top then r.base else top
        let base := if e.base ≤ resTop ∧ resTop < top then resTop else e.base
        .trim { e with base := base, length := top - base } extra

/-- The inner loop from `j` on; the `Bool` tells whether it left through `del_mm0`. -/
def overlapLoop (maxEntries i : Nat) : Nat → Memmap → Nat → Exec (Memmap × Bool)
  | 0, _, _ => .error .outOfFuel
  | fuel + 1, m, j =>
    match m[i]?, m[j]? with
    | some e, some r =>
      if j = i then overlapLoop maxEntries i fuel m (j + 1)
      else
        match carve e r with
        | .drop => .ok (m, true)
        | .skip => overlapLoop maxEntries i fuel m (j + 1)
        | .covered e' => .ok (m.set i e', false)
        | .trim e' none => overlapLoop maxEntries i fuel (m.set i e') (j + 1)
        | .trim e' (some x) =>
          if m.length ≥ maxEntries then .error (.panic "Memory map exhausted.")
          else overlapLoop maxEntries i fuel ((m ++ [x]).set i e') (j + 1)
    | _, _ => .ok (m, false)

/-- What the pass does with entry `i` once the inner loop is over: `none` deletes it. -/
def settleEntry (alignEntries : Bool) (e : MemmapEntry) : Option MemmapEntry :=
  if e.length = 0 then none
  else if alignEntries then
    (alignEntry e.base e.length).map fun (base, length) => { e with base := base, length := length }
  else some e

/-- The bytes that usable entries span, counted with multiplicity. -/
def usableBytes (m : Memmap) : Nat :=
  (m.map fun e => if e.type = memmapUsable then e.length else 0).sum

/-- Entries and usable bytes together: no turn of the passes makes this larger. -/
def weight (m : Memmap) : Nat := m.length + usableBytes m

/-- The first pass from entry `i` on. -/
def splitUsable (maxEntries : Nat) (alignEntries : Bool) : Nat → Memmap → Nat → Exec Memmap
  | 0, _, _ => .error .outOfFuel
  | fuel + 1, m, i =>
    match m[i]? with
    | none => .ok m
    | some e =>
      if e.type ≠ memmapUsable then splitUsable maxEntries alignEntries fuel m (i + 1)
      else
        match overlapLoop maxEntries i (weight m + 1) m 0 with
        | .error stop => .error stop
        | .ok (m', true) => splitUsable maxEntries alignEntries fuel (swapRemove m' i) 0
        | .ok (m', false) =>
          match m'[i]?.bind (settleEntry alignEntries) with
          | none => splitUsable maxEntries alignEntries fuel (swapRemove m' i) 0
          | some e' => splitUsable maxEntries alignEntries fuel (m'.set i e') (i + 1)

/-- One entry in the second pass: `none` is `del_mm1`. -/
def clipEntry (keepFirstPage : Bool) (e : MemmapEntry) : Option MemmapEntry :=
  if e.type = memmapUsable ∧ keepFirstPage = false ∧ e.base < 0x1000 then
    match checkedAdd e.base e.length with
    | none => none
    | some entryTop =>
      if entryTop ≤ 0x1000 then none
      else
        let length := e.length - (0x1000 - e.base)
        if length = 0 then none else some { e with base := 0x1000, length := length }
  else if e.length = 0 then none
  else some e

/-- The second pass from entry `i` on, with `n` turns to go: each turn either passes an entry
or deletes one, so `count - i` turns are what it takes. -/
def dropEmpty (keepFirstPage : Bool) : Nat → Memmap → Nat → Memmap
  | 0, m, _ => m
  | n + 1, m, i =>
    match m[i]? with
    | none => m
    | some e =>
      match clipEntry keepFirstPage e with
      | none => dropEmpty keepFirstPage n (swapRemove m i) i
      | some e' => dropEmpty keepFirstPage n (m.set i e') (i + 1)

/-- The scan for `min_index` over `m[i..]`: the first entry of least base, where `minIndex`
has base `min` so far. -/
def minIndexFrom : Memmap → Nat → Nat → Nat → Nat
  | [], _, _, minIndex => minIndex
  | e :: es, i, min, minIndex =>
    if e.base < min then minIndexFrom es (i + 1) e.base i else minIndexFrom es (i + 1) min minIndex

/-- The selection sort of `m[p..count)`, `n` entries long: entry `min_index` and entry `p` trade
places. -/
def sortEntries : Nat → Memmap → Memmap
  | n + 1, e :: es =>
    match minIndexFrom es 1 e.base 0 with
    | 0 => e :: sortEntries n es
    | k + 1 =>
      match es[k]? with
      | none => e :: es
      | some minE => minE :: sortEntries n (es.set k e)
  | _, m => m

/-- The types whose touching entries are merged. -/
def mergeable (type : Nat) : Bool :=
  type == memmapBootloaderReclaimable || type == memmapReservedMapped
    || type == memmapKernelAndModules || type == memmapUsable

/-- `m[i]` with `m[i + 1]` merged into it; `none` where the source goes on to the next `i`. -/
def mergeNext (e r : MemmapEntry) : Option MemmapEntry :=
  if mergeable e.type then
    match checkedAdd e.base e.length with
    | none => none
    | some mergeTop =>
      if r.type = e.type ∧ r.base = mergeTop then
        (checkedAdd e.length r.length).map fun length => { e with length := length }
      else none
  else none

/-- The merge pass from `m[i] = e` on: a merged entry is looked at again with its new
neighbour. -/
def mergeFrom (e : MemmapEntry) : Memmap → Memmap
  | [] => [e]
  | r :: rest =>
    match mergeNext e r with
    | some e' => mergeFrom e' rest
    | none => e :: mergeFrom r rest

def mergeEntries : Memmap → Memmap
  | [] => []
  | e :: rest => mergeFrom e rest

def pmmSanitiseEntries (maxEntries : Nat) (keepFirstPage : Bool) (m : Memmap)
    (alignEntries : Bool) : Exec Memmap := do
  let m ← splitUsable maxEntries alignEntries ((weight m + 2) * (weight m + 2)) m 0
  let m := dropEmpty keepFirstPage m.length m 0
  let m := sortEntries m.length m
  return mergeEntries m

end Limine.Pmm
