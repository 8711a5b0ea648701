import Limine.Machine
import Limine.Lib.RadixTable

/-!
# Page tables in memory

What `vmm.c` has for every architecture: `map_pages`, and `get_next_level`, which works on the
architecture's macros (`Encoding`) and calls its `map_page` to split a large page.  `map_page` is
a parameter here; an architecture gives the body of its own, and `fixMapPage` ties the knot.
-/

namespace Limine.Vmm

/-- `pt_entry_t`. -/
abbrev PtEntry := BitVec 64

/-- The tables by address and index, and the pages `ext_mem_alloc` is going to return. -/
structure Memory where
  mem : Nat → Nat → PtEntry
  supply : List Nat

abbrev VmmM := StateT Memory Exec

/-- `get_next_level`'s panic over the address of a large page. -/
def unexpectedAddress : Stop := .panic "Unexpected page table entry address in get_next_level"

/-- `ext_mem_alloc`'s panic. -/
def noMemory : Stop := .panic "High memory allocator: Out of memory"

def panic {α : Type} (msg : String) : VmmM α := fun _ => .error (.panic msg)

/-- `ext_mem_alloc(PT_SIZE)`, which returns zeroed memory. -/
def extMemAlloc : VmmM Nat := fun s =>
  match s.supply with
  | [] => .error noMemory
  | p :: ps => .ok (p, ⟨fun t i => if t = p then 0 else s.mem t i, ps⟩)

/-- `table[index]` -/
def readEntry (table index : Nat) : VmmM PtEntry := fun s => .ok (s.mem table index, s)

/-- `table[index] = entry` -/
def writeEntry (table index : Nat) (entry : PtEntry) : VmmM Unit := fun s =>
  .ok ((), { s with mem := fun t i => if t = table ∧ i = index then entry else s.mem t i })

/-- `enum page_size`; the last two sizes are RISC-V's. -/
inductive PageSize
  | size4KiB
  | size2MiB
  | size1GiB
  | size512GiB
  | size256TiB
deriving DecidableEq, Repr

/-- The values of the enumeration are level indexes. -/
def PageSize.level : PageSize → Nat
  | .size4KiB => 0
  | .size2MiB => 1
  | .size1GiB => 2
  | .size512GiB => 3
  | .size256TiB => 4

def PageSize.ofLevel : Nat → PageSize
  | 0 => .size4KiB
  | 1 => .size2MiB
  | 2 => .size1GiB
  | 3 => .size512GiB
  | _ => .size256TiB

def pageSizes : List Nat := [0x1000, 0x200000, 0x40000000, 0x8000000000, 0x1000000000000]

/-- The macros and inline functions of an architecture. -/
structure Encoding where
  /-- `PT_IS_TABLE`, which may look at `level_idx` -/
  isTable : Nat → PtEntry → Bool
  /-- `PT_IS_LARGE` -/
  isLarge : PtEntry → Bool
  /-- `PT_TO_VMM_FLAGS` -/
  toVmmFlags : PtEntry → PtEntry
  /-- `pte_new` -/
  pteNew : Nat → PtEntry → PtEntry
  /-- `pte_addr` -/
  pteAddr : PtEntry → Nat
  /-- `PT_TABLE_FLAGS` -/
  tableFlags : PtEntry
  /-- `VMM_MAX_LEVEL` -/
  maxLevel : Nat

/-- `map_page(virt, phys, flags, size)` on one pagemap. -/
abbrev MapPage := Nat → Nat → PtEntry → PageSize → VmmM Unit

/-- `map_page`, from its body with the recursive calls left open.  They map smaller and smaller
pages, so `fuel` need not be more than the number of page sizes. -/
def fixMapPage (body : MapPage → MapPage) : Nat → MapPage
  | 0 => fun _ _ _ _ _ => .error .outOfFuel
  | fuel + 1 => body (fixMapPage body fuel)

/-- `for (i = 0; i < total; i += step) body(i)`, from `i` on. -/
def forStep (step total : Nat) (body : Nat → VmmM Unit) : Nat → Nat → VmmM Unit
  | 0, _ => fun _ => .error .outOfFuel
  | fuel + 1, i =>
    if i < total then do
      body i
      forStep step total body fuel (i + step)
    else pure ()

def getNextLevel (A : Encoding) (mapPage : MapPage) (currentLevel virt : Nat) (desiredSz : PageSize)
    (levelIdx entry : Nat) : VmmM Nat := do
  let e ← readEntry currentLevel entry
  if A.isTable levelIdx e then return A.pteAddr e
  else if A.isLarge e then
    if levelIdx ≥ A.maxLevel ∨ levelIdx = 0 then panic "Unexpected level in get_next_level"
    else if desiredSz.level ≥ A.maxLevel then panic "Unexpected page size in get_next_level"
    else
      let oldPageSize := pageSizes.getD levelIdx 0
      let newPageSize := pageSizes.getD desiredSz.level 0
      let oldFlags := A.toVmmFlags e
      let oldPhys := A.pteAddr e
      let oldVirt := alignDown virt oldPageSize
      if oldPhys &&& (oldPageSize - 1) ≠ 0 then
        fun _ => .error unexpectedAddress
      else do
        let ret ← extMemAlloc
        writeEntry currentLevel entry (A.pteNew ret A.tableFlags)
        forStep newPageSize oldPageSize
          (fun i => mapPage (oldVirt + i) (oldPhys + i) oldFlags desiredSz)
          (oldPageSize / newPageSize + 1) 0
        return ret
  else do
    let ret ← extMemAlloc
    writeEntry currentLevel entry (A.pteNew ret A.tableFlags)
    return ret

/-- The loop of `map_pages`, from `i` on; `largePagePhysOk` is `LARGE_PAGE_PHYS_OK`. -/
def mapPagesLoop (largePagePhysOk : Nat → Bool) (mapPage : MapPage) (virt phys : Nat) (flags : PtEntry)
    (count : Nat) : Nat → Nat → VmmM Unit
  | 0, _ => fun _ => .error .outOfFuel
  | fuel + 1, i =>
    if i < count then
      if largePagePhysOk (phys + i) ∧ (phys + i) &&& (0x40000000 - 1) = 0 ∧
          (virt + i) &&& (0x40000000 - 1) = 0 ∧ count - i ≥ 0x40000000 then do
        mapPage (virt + i) (phys + i) flags .size1GiB
        mapPagesLoop largePagePhysOk mapPage virt phys flags count fuel (i + 0x40000000)
      else if largePagePhysOk (phys + i) ∧ (phys + i) &&& (0x200000 - 1) = 0 ∧
          (virt + i) &&& (0x200000 - 1) = 0 ∧ count - i ≥ 0x200000 then do
        mapPage (virt + i) (phys + i) flags .size2MiB
        mapPagesLoop largePagePhysOk mapPage virt phys flags count fuel (i + 0x200000)
      else do
        mapPage (virt + i) (phys + i) flags .size4KiB
        mapPagesLoop largePagePhysOk mapPage virt phys flags count fuel (i + 0x1000)
    else pure ()

def mapPages (largePagePhysOk : Nat → Bool) (mapPage : MapPage) (virt phys : Nat) (flags : PtEntry)
    (count : Nat) : VmmM Unit :=
  if virt % 0x1000 ≠ 0 ∨ phys % 0x1000 ≠ 0 ∨ count % 0x1000 ≠ 0 then
    panic "vmm: Misaligned call to map_pages()"
  else mapPagesLoop largePagePhysOk mapPage virt phys flags count (count / 0x1000 + 1) 0

/-- `map_pages` gives the flags to `map_page` only. -/
theorem mapPages_congr {largePagePhysOk : Nat → Bool} {mapPage : MapPage} {flags flags' : PtEntry}
    (h : ∀ virt phys size, mapPage virt phys flags size = mapPage virt phys flags' size)
    (virt phys count : Nat) :
    mapPages largePagePhysOk mapPage virt phys flags count =
      mapPages largePagePhysOk mapPage virt phys flags' count := by
  have loop : ∀ fuel i, mapPagesLoop largePagePhysOk mapPage virt phys flags count fuel i =
      mapPagesLoop largePagePhysOk mapPage virt phys flags' count fuel i := by
    intro fuel
    induction fuel with
    | zero => intro i; rfl
    | succ fuel ih =>
      intro i
      unfold mapPagesLoop
      simp only [h, ih]
  unfold mapPages
  rw [loop]

/-! ## Runs that do not panic -/

variable {α β : Type}

/-- The run ends as `post` says, unless `ext_mem_alloc` has no page left. -/
def Runs (m : VmmM α) (s : Memory) (post : α → Memory → Prop) : Prop :=
  match m s with
  | .ok (a, s') => post a s'
  | .error e => e = noMemory

theorem Runs.bind {m : VmmM α} {f : α → VmmM β} {s : Memory} {post : α → Memory → Prop}
    {post' : β → Memory → Prop} (h : Runs m s post) (hf : ∀ a s', post a s' → Runs (f a) s' post') :
    Runs (m >>= f) s post' := by
  unfold Runs at h ⊢
  have hb : (m >>= f) s = (m s >>= fun r => f r.1 r.2) := rfl
  rw [hb]
  cases hm : m s with
  | error e =>
    rw [hm] at h
    exact h
  | ok r =>
    rw [hm] at h
    exact hf r.1 r.2 h

theorem Runs.imp {m : VmmM α} {s : Memory} {post post' : α → Memory → Prop} (h : Runs m s post)
    (himp : ∀ a s', post a s' → post' a s') : Runs m s post' := by
  unfold Runs at h ⊢
  cases hm : m s with
  | error e =>
    rw [hm] at h
    exact h
  | ok r =>
    rw [hm] at h
    exact himp r.1 r.2 h

theorem Runs.pure {a : α} {s : Memory} {post : α → Memory → Prop} (h : post a s) :
    Runs (Pure.pure a : VmmM α) s post := h

theorem Runs.readEntry {table index : Nat} {f : PtEntry → VmmM β} {s : Memory}
    {post : β → Memory → Prop} (h : Runs (f (s.mem table index)) s post) :
    Runs (Vmm.readEntry table index >>= f) s post := h

theorem Runs.writeEntry {table index : Nat} {e : PtEntry} {f : Unit → VmmM β} {s : Memory}
    {post : β → Memory → Prop}
    (h : Runs (f ()) { s with mem := fun t i => if t = table ∧ i = index then e else s.mem t i } post) :
    Runs (Vmm.writeEntry table index e >>= f) s post := h

/-- A run that ends with the write. -/
theorem Runs.wroteEntry {table index : Nat} {e : PtEntry} {s : Memory} {post : Unit → Memory → Prop}
    (h : post () { s with mem := fun t i => if t = table ∧ i = index then e else s.mem t i }) :
    Runs (Vmm.writeEntry table index e) s post := h

theorem Runs.extMemAlloc {f : Nat → VmmM β} {s : Memory} {post : β → Memory → Prop}
    (h : ∀ p ps, s.supply = p :: ps →
      Runs (f p) ⟨fun t i => if t = p then 0 else s.mem t i, ps⟩ post) :
    Runs (Vmm.extMemAlloc >>= f) s post := by
  have hb : (Vmm.extMemAlloc >>= f) s = (Vmm.extMemAlloc s >>= fun r => f r.1 r.2) := rfl
  unfold Runs
  rw [hb]
  unfold Vmm.extMemAlloc
  cases hs : s.supply with
  | nil => rfl
  | cons p ps => exact h p ps hs

theorem Runs.of_eq {m m' : VmmM α} {s : Memory} {post : α → Memory → Prop} (heq : m s = m' s)
    (h : Runs m' s post) : Runs m s post := by
  unfold Runs at h ⊢
  rwa [heq]

theorem Runs.of_ok {m : VmmM α} {s s' : Memory} {post : α → Memory → Prop} (h : Runs m s post) {a : α}
    (hok : m s = .ok (a, s')) : post a s' := by
  unfold Runs at h
  rwa [hok] at h

theorem exists_of_isOk {m : VmmM α} {s : Memory} (hok : (m s).isOk = true) : ∃ a s', m s = .ok (a, s') := by
  cases hm : m s with
  | error e =>
    rw [hm] at hok
    cases hok
  | ok r => exact ⟨r.1, r.2, rfl⟩

/-- A run that is seen to end well leaves what it promises under the premise `p`. -/
theorem Runs.exists_ok {m : VmmM α} {s : Memory} {post : α → Memory → Prop} {p : Prop} (h : p → Runs m s post)
    (hp : p) (hok : (m s).isOk = true) : ∃ a s', m s = .ok (a, s') ∧ post a s' := by
  obtain ⟨a, s', hm⟩ := exists_of_isOk hok
  exact ⟨a, s', hm, (h hp).of_ok hm⟩

theorem bind_eq_ok {m : VmmM α} {f : α → VmmM β} {s s'' : Memory} {b : β}
    (h : (m >>= f) s = .ok (b, s'')) : ∃ a s', m s = .ok (a, s') ∧ f a s' = .ok (b, s'') := by
  have hb : (m >>= f) s = (m s >>= fun r => f r.1 r.2) := rfl
  rw [hb] at h
  cases hm : m s with
  | error e =>
    rw [hm] at h
    cases h
  | ok r =>
    rw [hm] at h
    exact ⟨r.1, r.2, rfl, h⟩

theorem bind_eq_error {m : VmmM α} {s : Memory} {e : Stop} (h : m s = .error e) (f : α → VmmM β) :
    (m >>= f) s = .error e := by
  have hb : (m >>= f) s = (m s >>= fun r => f r.1 r.2) := rfl
  rw [hb, h]
  rfl

theorem bind_of_ok {m : VmmM α} {s s' : Memory} {a : α} (h : m s = .ok (a, s')) (f : α → VmmM β) :
    (m >>= f) s = f a s' := by
  have hb : (m >>= f) s = (m s >>= fun r => f r.1 r.2) := rfl
  rw [hb, h]
  rfl

/-- The rule of a loop: `inv i` holds before turn `i`. -/
theorem forStep_runs {step total : Nat} {body : Nat → VmmM Unit} {inv : Nat → Memory → Prop}
    (h0 : 0 < step) (hd : step ∣ total)
    (hbody : ∀ i s, i < total → step ∣ i → inv i s → Runs (body i) s fun _ s' => inv (i + step) s') :
    ∀ fuel i s, step ∣ i → i ≤ total → (total - i) / step < fuel → inv i s →
      Runs (forStep step total body fuel i) s fun _ s' => inv total s' := by
  intro fuel
  induction fuel with
  | zero => intro i s _ _ hf _; exact absurd hf (Nat.not_lt_zero _)
  | succ fuel ih =>
    intro i s hi hle hf hinv
    unfold forStep
    split
    · next hlt =>
      have hnext : i + step ≤ total := by
        obtain ⟨a, rfl⟩ := hd
        obtain ⟨b, rfl⟩ := hi
        rw [← Nat.mul_succ]
        exact Nat.mul_le_mul_left step (Nat.lt_of_mul_lt_mul_left hlt)
      refine (hbody i s hlt hi hinv).bind fun _ s' hinv' => ih (i + step) s' (Nat.dvd_add hi (Nat.dvd_refl _))
        hnext ?_ hinv'
      have h1 : (total - i) / step = (total - (i + step)) / step + 1 := by
        rw [show total - i = total - (i + step) + step by omega, Nat.add_div_right _ h0]
      omega
    · next hge =>
      obtain rfl : i = total := by omega
      exact Runs.pure hinv

-- from here on a run is taken apart with the rules only
attribute [irreducible] Runs

end Limine.Vmm
