import Xv6.Fs.Icache

/-! fs.c: paths. namei() and nameiparent() fold the lookup of one name over the
elements of a path, and hold one reference at a time while they do. -/

namespace Xv6.Fs
open Lib

def slash : UInt8 := 47

/-- Copy the next path element from path into name, and return the path behind it
and its slashes. A path is the bytes before its NUL. -/
def skipelem (path : List UInt8) (name : Chars) : Option (List UInt8 × Chars) :=
  let s := path.dropWhile fun c => c == slash
  if s.headD 0 = 0 then none
  else
    let path := s.dropWhile fun c => c != slash && c != 0
    let len := s.length - path.length
    let name : Chars :=
      if len ≥ dirsiz then fun j => if j < dirsiz then s.getD j 0 else name j
      else fun j => if j < len then s.getD j 0 else if j = len then 0 else name j
    some (path.dropWhile fun c => c == slash, name)

section code
variable (sb : Superblock) (dev : Devsw)

/-- The loop of namex(). Each round takes an element off the path, so that a round
for each byte is enough. -/
def namexLoop (parent : Bool) : Nat → Fin ninode → List UInt8 → Chars →
    Prog Cached (Option (Fin ninode) × Chars)
  | 0, _, _, _ => .halt
  | fuel + 1, ip, path, name =>
    match skipelem path name with
    | none =>
      if parent then do
        iput sb ip
        return (none, name)
      else return (some ip, name)
    | some (path, name) => do
      ilock sb ip
      let s ← .get
      if (s.inode ip).node.type ≠ tDir then do
        iunlockput sb ip
        return (none, name)
      else if parent = true ∧ path.headD 0 = 0 then do
        -- Stop one level early.
        iunlock ip
        return (some ip, name)
      else do
        let next ← Cached.dirlookup sb dev ip name
        match next with
        | none => do
          iunlockput sb ip
          return (none, name)
        | some (_, next) => do
          iunlockput sb ip
          namexLoop parent fuel next path name

/-- Look up and return the inode for a path name, or the inode for the parent and
the final path element. -/
def namex (cwd : Fin ninode) (path : List UInt8) (parent : Bool) (name : Chars) :
    Prog Cached (Option (Fin ninode) × Chars) := do
  let ip ← if path.headD 0 = slash then iget rootdev rootino else idup cwd
  namexLoop sb dev parent (path.length + 1) ip path name

-- What the local array holds at first is not read.
def namei (cwd : Fin ninode) (path : List UInt8) : Prog Cached (Option (Fin ninode)) := do
  let (ip, _) ← namex sb dev cwd path false (charsOf [])
  return ip

def nameiparent (cwd : Fin ninode) (path : List UInt8) (name : Chars) :
    Prog Cached (Option (Fin ninode) × Chars) :=
  namex sb dev cwd path true name

end code

/-! ## The elements of a path -/

/-- The parts between slashes, without the empty ones. -/
def elements (path : List UInt8) : List (List UInt8) :=
  (path.splitOn slash).filter fun c => c ≠ []

/-- The names that are looked up. -/
def components (path : List UInt8) : List (List UInt8) :=
  (elements path).map fun c => c.take dirsiz

theorem elements_slash (path : List UInt8) : elements (slash :: path) = elements path := by
  simp [elements, List.splitOn_cons_eq_if_modifyHead]

theorem elements_dropWhile (path : List UInt8) :
    elements (path.dropWhile fun c => c == slash) = elements path := by
  induction path with
  | nil => rfl
  | cons c path ih =>
    rw [List.dropWhile_cons]
    split
    · rename_i eq
      rw [ih, eq_of_beq eq, elements_slash]
    · rfl

/-- An element that is followed by a slash or by the end. -/
theorem elements_append {c rest : List UInt8} (word : c ≠ []) (clean : slash ∉ c)
    (ends : ∀ b, rest.head? = some b → b = slash) : elements (c ++ rest) = c :: elements rest := by
  have plain : ∀ x, x ∈ c → (x == slash) = false := by
    intro x mem
    rw [beq_eq_false_iff_ne]
    rintro rfl
    exact clean mem
  cases rest with
  | nil =>
    rw [List.append_nil, elements, List.splitOn_eq_singleton clean]
    simp [elements, word]
  | cons b rest =>
    obtain rfl := ends b rfl
    have split : (c ++ slash :: rest).splitOn slash = c.splitOn slash ++ rest.splitOn slash :=
      List.splitOnP_append_cons c rest (beq_self_eq_true slash)
    rw [elements_slash, elements, split, List.splitOn_eq_singleton clean]
    simp [elements, word]

theorem head_dropWhile {p : UInt8 → Bool} {l : List UInt8} {b : UInt8}
    (h : (l.dropWhile p).head? = some b) : p b = false := by
  have no := List.head?_dropWhile_not p l
  rw [h] at no
  simpa using no

/-- A path that starts with no slash has an element, or is empty. -/
theorem elements_eq_nil_iff {path : List UInt8} (start : ∀ b, path.head? = some b → b ≠ slash) :
    elements path = [] ↔ path = [] := by
  refine ⟨fun none => ?_, fun nil => nil ▸ rfl⟩
  cases path with
  | nil => rfl
  | cons b l =>
    have parts := List.takeWhile_append_dropWhile (p := fun c => c != slash) (l := b :: l)
    have word : (b :: l).takeWhile (fun c => c != slash) ≠ [] := by
      simp [start b rfl]
    rw [← parts, elements_append word] at none
    · cases none
    · intro mem
      simpa using List.all_eq_true.mp List.all_takeWhile _ mem
    · intro x hx
      simpa using head_dropWhile hx

/-- A path has an element as long as skipelem() finds one. -/
theorem skipelem_none {path : List UInt8} {name : Chars} (clean : 0 ∉ path)
    (h : skipelem path name = none) : elements path = [] := by
  simp only [skipelem] at h
  rw [← elements_dropWhile]
  split at h
  · rename_i zero
    cases rest : path.dropWhile fun c => c == slash with
    | nil => rfl
    | cons b l =>
      rw [rest, List.headD_cons] at zero
      subst zero
      have mem : 0 ∈ path.dropWhile fun c => c == slash := rest ▸ List.mem_cons_self
      exact absurd ((List.dropWhile_sublist _).subset mem) clean
  · cases h

/-- The bytes that skipelem() copies are the name, cut off after DIRSIZ of them. -/
theorem keyOf_copied {c s : List UInt8} {name name' : Chars} (text : 0 ∉ c)
    (bytes : ∀ j, j < c.length → s.getD j 0 = charsOf c j)
    (copied : name' = if c.length ≥ dirsiz then fun j => if j < dirsiz then s.getD j 0 else name j
      else fun j => if j < c.length then s.getD j 0 else if j = c.length then 0 else name j) :
    keyOf name' = c.take dirsiz := by
  subst copied
  by_cases long : c.length ≥ dirsiz
  · rw [if_pos long, keyOf, ← upTo_charsOf text]
    apply upTo_congr
    intro j hj
    rw [if_pos hj, bytes j (Nat.lt_of_lt_of_le hj long)]
  · rw [if_neg long, keyOf, List.take_of_length_le (by omega)]
    apply upTo_eq _ _ text (by omega)
    · intro j hj
      rw [if_pos hj, bytes j hj, charsOf, List.getD_eq_getElem _ _ hj]
    · rw [if_neg (Nat.lt_irrefl _), if_pos rfl]

/-- What skipelem() takes off the path is its first element. -/
theorem skipelem_some {path rest : List UInt8} {name name' : Chars} (clean : 0 ∉ path)
    (h : skipelem path name = some (rest, name')) :
    ∃ c, elements path = c :: elements rest ∧ keyOf name' = c.take dirsiz ∧ 0 ∉ rest ∧
      rest.length < path.length ∧ (elements rest = [] ↔ rest = []) := by
  simp only [skipelem] at h
  rw [← elements_dropWhile]
  have within := List.dropWhile_sublist (l := path) fun c => c == slash
  have first {b : UInt8} (hb : (path.dropWhile fun c => c == slash).head? = some b) : b ≠ slash := by
    have := head_dropWhile hb
    simpa using this
  generalize path.dropWhile (fun c => c == slash) = s at h within first
  have clean' : 0 ∉ s := fun mem => clean (within.subset mem)
  cases s with
  | nil => simp at h
  | cons b l =>
    have start : b ≠ slash ∧ b ≠ 0 := ⟨first rfl, fun zero => clean' (zero ▸ List.mem_cons_self)⟩
    rw [List.headD_cons, if_neg start.2, Option.some.injEq, Prod.mk.injEq] at h
    obtain ⟨rfl, copied⟩ := h
    have parts := List.takeWhile_append_dropWhile (p := fun c => c != slash && c != 0) (l := b :: l)
    have word : (b :: l).takeWhile (fun c => c != slash && c != 0) ≠ [] := by
      simp [start.1, start.2]
    have stop {x : UInt8} (hx : ((b :: l).dropWhile fun c => c != slash && c != 0).head? = some x) :
        x = slash := by
      have at_end := head_dropWhile hx
      have mem := (List.dropWhile_sublist _).subset (List.mem_of_head? hx)
      have nonzero : x ≠ 0 := fun zero => clean' (zero ▸ mem)
      simpa [nonzero] using at_end
    have plain : ∀ x ∈ (b :: l).takeWhile (fun c => c != slash && c != 0), x ≠ slash ∧ x ≠ 0 := by
      intro x mem
      simpa using List.all_eq_true.mp List.all_takeWhile x mem
    generalize (b :: l).takeWhile (fun c => c != slash && c != 0) = c at parts word plain
    generalize (b :: l).dropWhile (fun c => c != slash && c != 0) = tail at parts stop copied
    rw [← parts] at within clean' copied ⊢
    have length : (c ++ tail).length - tail.length = c.length := by simp
    rw [length] at copied
    have shorter := (List.dropWhile_sublist (l := tail) fun c => c == slash)
    refine ⟨c, ?_, ?_, ?_, ?_, ?_⟩
    · rw [elements_append word (fun mem => (plain _ mem).1 rfl) fun x hx => stop hx,
        elements_dropWhile]
    · refine keyOf_copied (fun mem => (plain _ mem).2 rfl) ?_ copied.symm
      intro j hj
      rw [charsOf, List.getD_append _ _ _ _ hj]
    · exact fun mem => clean' (List.mem_append_right c (shorter.subset mem))
    · have less := shorter.length_le
      have total := within.length_le
      have pos := List.length_pos_iff.mpr word
      rw [List.length_append] at total
      omega
    · apply elements_eq_nil_iff
      intro x hx
      simpa using head_dropWhile hx

/-! ## Looking names up one after another -/

section resolution
variable (sb : Superblock) (d : Disk)

/-- The inode that is reached from `i` by a list of names. -/
def Disk.walk (i : Nat) (cs : List (List UInt8)) : Option Nat := cs.foldlM (d.child sb) i

/-- The directory in which the last name is looked up, and that name. -/
def Disk.walkParent (i : Nat) (cs : List (List UInt8)) : Option (Nat × List UInt8) := do
  let last ← cs.getLast?
  let j ← d.walk sb i cs.dropLast
  if (d.dinode sb j).type = tDir then some (j, last) else none

/-- The order in which namex() makes its tests. -/
def Disk.resolve (parent : Bool) (i : Nat) : List (List UInt8) → Option Nat
  | [] => if parent then none else some i
  | c :: cs =>
    if (d.dinode sb i).type ≠ tDir then none
    else if parent = true ∧ cs = [] then some i
    else (d.child sb i c).bind fun j => Disk.resolve parent j cs

variable {sb d} {i : Nat}

theorem resolve_eq_walk (cs : List (List UInt8)) : d.resolve sb false i cs = d.walk sb i cs := by
  induction cs generalizing i with
  | nil => rfl
  | cons c cs ih =>
    rw [Disk.resolve, Disk.walk, List.foldlM_cons]
    by_cases dir : (d.dinode sb i).type = tDir
    · simp only [dir, ne_eq, not_true_eq_false, Bool.false_eq_true, false_and, ↓reduceIte, ih]
      rfl
    · rw [if_pos dir, child_of_not_dir dir]
      rfl

/-- The last of two or more names is looked up from where the first one leads. -/
theorem walkParent_cons {c : List UInt8} {cs : List (List UInt8)} (more : cs ≠ []) :
    d.walkParent sb i (c :: cs) = (d.child sb i c).bind fun j => d.walkParent sb j cs := by
  obtain ⟨last, found⟩ : ∃ last, cs.getLast? = some last :=
    ⟨_, List.getLast?_eq_some_getLast more⟩
  have same : (c :: cs).getLast? = some last := by
    rw [List.getLast?_cons, found]
    rfl
  rw [Disk.walkParent, same, List.dropLast_cons_of_ne_nil more, Disk.walk, List.foldlM_cons]
  cases step : d.child sb i c with
  | none => rfl
  | some j =>
    rw [Option.bind_some, Disk.walkParent, found]
    rfl

theorem walkParent_some {cs : List (List UInt8)} {j : Nat} {last : List UInt8}
    (h : d.walkParent sb i cs = some (j, last)) :
    cs.getLast? = some last ∧ d.walk sb i cs.dropLast = some j ∧ (d.dinode sb j).type = tDir := by
  obtain ⟨c, found, h⟩ := Option.bind_eq_some_iff.mp h
  obtain ⟨k, walked, h⟩ := Option.bind_eq_some_iff.mp h
  split at h
  case isTrue dir =>
    obtain ⟨rfl, rfl⟩ := Prod.mk.inj (Option.some.inj h)
    exact ⟨found, walked, dir⟩
  case isFalse => cases h

theorem resolve_eq_walkParent (cs : List (List UInt8)) :
    d.resolve sb true i cs = (d.walkParent sb i cs).map Prod.fst := by
  induction cs generalizing i with
  | nil => rfl
  | cons c cs ih =>
    rw [Disk.resolve]
    by_cases last : cs = []
    · subst last
      by_cases dir : (d.dinode sb i).type = tDir
      · simp [dir, Disk.walkParent, Disk.walk]
      · simp [dir, Disk.walkParent, Disk.walk]
    · rw [walkParent_cons last]
      by_cases dir : (d.dinode sb i).type = tDir
      · simp only [dir, last, ne_eq, not_true_eq_false, and_false, ↓reduceIte, ih]
        cases d.child sb i c <;> rfl
      · rw [if_pos dir, child_of_not_dir dir]
        rfl

end resolution

/-! ## namex() -/

section walks
variable {sb : Superblock} {dev : Devsw} {base : Fin ninode → Inode} {d : Disk} {s : Cached}
  {a : Fin ninode} {i : Nat} {path : List UInt8} {name : Chars} {parent : Bool}

/-- At most one entry of the cache is not in use. -/
def Crowded (base : Fin ninode → Inode) : Prop :=
  ∀ a b, (base a).ref = 0 → (base b).ref = 0 → a = b

/-- The disk is unchanged, and there is one more reference for the inode that is
returned, and for no other. -/
def Gives (sb : Superblock) (base : Fin ninode → Inode) (d : Disk) (target : Option Nat)
    (r : Option (Fin ninode)) (t : Cached) : Prop :=
  t.disk = d ∧ match target with
  | none => r = none ∧ Holding sb base 0 ∅ t
  | some j => ∃ b, r = some b ∧ Holding sb base {(b, j)} ∅ t

/-- A call that holds one reference finds the cache full. -/
theorem Holding.crowded {locks : Finset (Fin ninode)} (h : Holding sb base {(a, i)} locks s)
    (full : ∀ b, 0 < (s.inode b).ref) : Crowded base := by
  have only (b : Fin ninode) (zero : (base b).ref = 0) : b = a := by
    by_contra other
    have ref := (h.entry b).ref
    have pos := full b
    simp [other, zero] at ref
    omega
  intro b c hb hc
  rw [only b hb, only c hc]

theorem Holding.gives_up (kept : Kept sb base s.disk)
    (h : Holding sb base {(a, i)} (insert a ∅) s) :
    ∃ t, iunlockput sb a s = some ((), t) ∧ t.disk = s.disk ∧ Holding sb base 0 ∅ t := by
  obtain ⟨t, put, disk, h'⟩ := Holding.iunlockput_spec h (Finset.mem_insert_self a ∅)
    (kept.reference h)
  rw [Finset.erase_insert (Finset.notMem_empty a)] at h'
  exact ⟨t, put, disk, h'⟩

theorem Holding.quits (kept : Kept sb base s.disk) (h : Holding sb base {(a, i)} (insert a ∅) s)
    {α : Type} {x y : α} {t : Cached}
    (run : (iunlockput sb a >>= fun _ => (pure x : Prog Cached α)) s = some (y, t)) :
    x = y ∧ t.disk = s.disk ∧ Holding sb base 0 ∅ t := by
  obtain ⟨t', put, disk, h'⟩ := h.gives_up kept
  have run := Prog.follow run put
  obtain ⟨rfl, rfl⟩ := Prog.pure_eq_some.mp run
  exact ⟨rfl, disk, h'⟩

/-- The lookup of a name in a directory, after which the directory is let go. -/
theorem Holding.descend (tree : Tree sb s.disk) (kept : Kept sb base s.disk) (dev : Devsw)
    (h : Holding sb base {(a, i)} (insert a ∅) s) (type : (s.disk.dinode sb i).type = tDir)
    (name : Chars) :
    (s.disk.child sb i (keyOf name) = none ∧ Cached.dirlookup sb dev a name s = some (none, s) ∧
      ∃ t, iunlockput sb a s = some ((), t) ∧ t.disk = s.disk ∧ Holding sb base 0 ∅ t) ∨
    ∃ j, s.disk.child sb i (keyOf name) = some j ∧
      ((∃ off b t₁ t, Cached.dirlookup sb dev a name s = some (some (off, b), t₁) ∧
        iunlockput sb a t₁ = some ((), t) ∧ t.disk = s.disk ∧ Holding sb base {(b, j)} ∅ t) ∨
      (Cached.dirlookup sb dev a name s = none ∧ Crowded base)) := by
  have mem := Multiset.mem_singleton_self (a, i)
  have here := Finset.mem_insert_self a (∅ : Finset (Fin ninode))
  obtain ⟨child, search⟩ | ⟨j, child, got⟩ := h.dirlookup_spec tree dev mem here type name
  · exact .inl ⟨child, search, h.gives_up kept⟩
  · refine .inr ⟨j, child, ?_⟩
    obtain ⟨b, t₁, search, disk₁, h₁⟩ | ⟨search, full⟩ := got
    · have swap : (b, j) ::ₘ ({(a, i)} : Multiset (Fin ninode × Nat)) = (a, i) ::ₘ {(b, j)} :=
        Multiset.pair_comm _ _
      rw [swap] at h₁
      have kept₁ : Kept sb base t₁.disk := disk₁ ▸ kept
      obtain ⟨t, put, disk, h'⟩ := h₁.iunlockput_spec here (kept₁.reference h₁)
      rw [Finset.erase_insert (Finset.notMem_empty a)] at h'
      exact .inl ⟨_, b, t₁, t, search, put, disk.trans disk₁, h'⟩
    · exact .inr ⟨search, h.crowded full⟩

/-- The loop gives what the remaining names lead to from the inode that it holds. -/
theorem namexLoop_spec (tree : Tree sb d) (kept : Kept sb base d) {fuel : Nat}
    (enough : path.length < fuel) (clean : 0 ∉ path) (name : Chars) (disk : s.disk = d)
    (h : Holding sb base {(a, i)} ∅ s) (live : (d.dinode sb i).type = 0 → Dangling sb d) :
    (∃ r name' t, namexLoop sb dev parent fuel a path name s = some ((r, name'), t) ∧
      Gives sb base d (d.resolve sb parent i (components path)) r t ∧
      (parent = true → r ≠ none → (components path).getLast? = some (keyOf name'))) ∨
    (namexLoop sb dev parent fuel a path name s = none ∧ (Crowded base ∨ Dangling sb d)) := by
  induction fuel generalizing path name s a i with
  | zero => omega
  | succ fuel ih =>
    have mem := Multiset.mem_singleton_self (a, i)
    cases skipped : skipelem path name with
    | none =>
      have none : components path = [] := by rw [components, skipelem_none clean skipped]; rfl
      rw [none]
      left
      cases parent with
      | false =>
        exact ⟨some a, name, s, by simp [namexLoop, skipped], ⟨disk, a, rfl, h⟩,
          fun no => absurd no Bool.false_ne_true⟩
      | true =>
        obtain ⟨t, put, disk', h'⟩ := Holding.iput_spec h
          (fun lock => absurd lock (Finset.notMem_empty a))
          (Kept.reference (disk ▸ kept) h)
        refine ⟨Option.none, name, t, ?_, ⟨disk'.trans disk, rfl, h'⟩, fun _ no => absurd rfl no⟩
        simp only [namexLoop, skipped, ↓reduceIte, bind, put]
        rfl
    | some r =>
      obtain ⟨rest, name'⟩ := r
      obtain ⟨c, first, key, clean', shorter, empty⟩ := skipelem_some clean skipped
      have names : components path = keyOf name' :: components rest := by
        rw [components, first, List.map_cons, ← key]
        rfl
      have last : components rest = [] ↔ rest.headD 0 = 0 := by
        rw [components, List.map_eq_nil_iff, empty]
        cases rest with
        | nil => simp
        | cons b l =>
          have nonzero : b ≠ 0 := fun zero => clean' (zero ▸ List.mem_cons_self)
          simp [nonzero]
      by_cases dead : (d.dinode sb i).type = 0
      case pos =>
        refine .inr ⟨?_, .inr (live dead)⟩
        simp only [namexLoop, skipped, bind, h.ilock_dead mem (disk ▸ dead)]
      obtain ⟨t₁, locked, disk₁, h₁⟩ := h.ilock_spec mem (Finset.notMem_empty a) (disk ▸ dead)
      have here := Finset.mem_insert_self a (∅ : Finset (Fin ninode))
      have node := h₁.node mem here
      rw [disk] at disk₁
      subst disk₁
      rw [names, Disk.resolve]
      by_cases dir : (t₁.disk.dinode sb i).type = tDir
      case neg =>
        obtain ⟨t, put, disk, h'⟩ := h₁.gives_up kept
        refine .inl ⟨none, name', t, ?_, ?_, fun _ no => absurd rfl no⟩
        · simp only [namexLoop, skipped, bind, locked, Prog.get, node, dir, put, ne_eq,
            not_false_eq_true, ↓reduceIte]
          rfl
        · rw [if_pos dir]
          exact ⟨disk, rfl, h'⟩
      simp only [dir, ne_eq, not_true_eq_false, ↓reduceIte]
      by_cases stop : parent = true ∧ components rest = []
      · have stop' : parent = true ∧ rest.headD 0 = 0 := ⟨stop.1, last.mp stop.2⟩
        obtain ⟨t, unlocked, disk, h'⟩ := h₁.iunlock_spec here
        rw [Finset.erase_insert (Finset.notMem_empty a)] at h'
        refine .inl ⟨some a, name', t, ?_, ?_, ?_⟩
        · simp only [namexLoop, skipped, bind, locked, Prog.get, node, dir, stop', unlocked, ne_eq,
            not_true_eq_false, and_self, ↓reduceIte]
          rfl
        · rw [if_pos stop]
          exact ⟨disk, a, rfl, h'⟩
        · intro _ _
          rw [stop.2]
          rfl
      · have go : ¬ (parent = true ∧ rest.headD 0 = 0) := by
          rw [← last]
          exact stop
        rw [if_neg stop]
        obtain ⟨child, search, t, put, disk, h'⟩ | ⟨j, child, got⟩ :=
          h₁.descend tree kept dev dir name'
        · rw [child]
          refine .inl ⟨none, name', t, ?_, ⟨disk, rfl, h'⟩, fun _ no => absurd rfl no⟩
          simp only [namexLoop, skipped, bind, locked, Prog.get, node, dir, go, search, put, ne_eq,
            not_true_eq_false, ↓reduceIte]
          rfl
        · rw [child, Option.bind_some]
          obtain ⟨off, b, t₂, t₃, search, put, disk₃, h₃⟩ | ⟨search, full⟩ := got
          · have run : namexLoop sb dev parent (fuel + 1) a path name s =
                namexLoop sb dev parent fuel b rest name' t₃ := by
              simp only [namexLoop, skipped, bind, locked, Prog.get, node, dir, go, search, put,
                ne_eq, not_true_eq_false, ↓reduceIte]
            rw [run]
            have live₃ (dead : (t₁.disk.dinode sb j).type = 0) : Dangling sb t₁.disk :=
              ⟨i, keyOf name', j, h.bound mem, child, dead⟩
            obtain ⟨r, name₃, t, walked, gives, named⟩ | halted :=
              ih (by omega) clean' name' disk₃ h₃ live₃
            · refine .inl ⟨r, name₃, t, walked, gives, fun up got => ?_⟩
              rw [List.getLast?_cons, named up got]
              rfl
            · exact .inr halted
          · refine .inr ⟨?_, .inl full⟩
            simp only [namexLoop, skipped, bind, locked, Prog.get, node, dir, go, search, ne_eq,
              not_true_eq_false, ↓reduceIte]

/-- Where the lookup of a path starts. -/
def Cached.start (s : Cached) (cwd : Fin ninode) (path : List UInt8) : Nat :=
  if path.headD 0 = slash then rootino else (s.inode cwd).inum

theorem namex_spec (rest : s.AtRest sb) (dev : Devsw) {cwd : Fin ninode}
    (used : 0 < (s.inode cwd).ref) (clean : 0 ∉ path) (parent : Bool) (name : Chars) :
    (∃ r name' t, namex sb dev cwd path parent name s = some ((r, name'), t) ∧
      Gives sb s.inode s.disk (s.disk.resolve sb parent (s.start cwd path) (components path)) r t ∧
      (parent = true → r ≠ none → (components path).getLast? = some (keyOf name'))) ∨
    (namex sb dev cwd path parent name s = none ∧ (Crowded s.inode ∨ Dangling sb s.disk)) := by
  have enough := Nat.lt_succ_self path.length
  by_cases absolute : path.headD 0 = slash
  · rw [Cached.start, if_pos absolute]
    obtain ⟨a, t, got, disk, h⟩ | ⟨got, full⟩ :=
      rest.holding.iget_spec rest.tree.root.1
    · have run : namex sb dev cwd path parent name s =
          namexLoop sb dev parent (path.length + 1) a path name t := by
        simp only [namex, bind, absolute, ↓reduceIte, got]
      rw [run]
      exact namexLoop_spec rest.tree rest.kept enough clean name disk h
        fun dead => absurd dead rest.tree.root.2
    · refine .inr ⟨?_, .inl fun a _ zero _ => absurd zero (Nat.ne_of_gt (full a))⟩
      simp only [namex, bind, absolute, ↓reduceIte, got]
  · rw [Cached.start, if_neg absolute]
    obtain ⟨t, got, disk, h⟩ := rest.holding.idup_spec used
    have run : namex sb dev cwd path parent name s =
        namexLoop sb dev parent (path.length + 1) cwd path name t := by
      simp only [namex, bind, absolute, ↓reduceIte, got]
    rw [run]
    exact namexLoop_spec rest.tree rest.kept enough clean name disk h
      fun dead => absurd dead ((rest.holding.entry cwd).live used)

/-- Inode `target` has been found: it has one reference more, and nothing else has
changed. -/
structure Found (s : Cached) (target : Option Nat) (r : Option (Fin ninode)) (t : Cached) : Prop where
  disk : t.disk = s.disk
  inode : (r.map fun a => ((t.inode a).dev, (t.inode a).inum)) = target.map fun j => (rootdev, j)
  refs : ∀ b, (t.inode b).ref = (s.inode b).ref + if r = some b then 1 else 0
  others : ∀ b, 0 < (s.inode b).ref →
    (t.inode b).dev = (s.inode b).dev ∧ (t.inode b).inum = (s.inode b).inum

theorem Gives.found {t : Cached} {target : Option Nat} {r : Option (Fin ninode)}
    (h : Holding sb s.inode 0 ∅ s) (gives : Gives sb s.inode s.disk target r t) :
    Found s target r t := by
  obtain ⟨disk, gives⟩ := gives
  have others {held : Multiset (Fin ninode × Nat)} (h' : Holding sb s.inode held ∅ t)
      (b : Fin ninode) (used : 0 < (s.inode b).ref) :
      (t.inode b).dev = (s.inode b).dev ∧ (t.inode b).inum = (s.inode b).inum :=
    ⟨((h'.entry b).dev (h'.ref_base used)).trans ((h.entry b).dev used).symm, (h'.entry b).same used⟩
  cases target with
  | none =>
    obtain ⟨rfl, h'⟩ := gives
    exact ⟨disk, rfl, fun b => (h'.entry b).ref, others h'⟩
  | some j =>
    obtain ⟨a, rfl, h'⟩ := gives
    have mem := Multiset.mem_singleton_self (a, j)
    refine ⟨disk, ?_, fun b => ?_, others h'⟩
    · rw [Option.map_some, Option.map_some, (h'.entry a).dev (h'.ref_pos mem), h'.inum_eq mem]
    · rw [(h'.entry b).ref, Multiset.map_singleton, Multiset.count_singleton]
      simp only [Option.some.injEq, eq_comm]

/-- In a tree without dangling entries, namei() looks the components of the path up
one after another, and nameiparent() all but the last; the cache has one more
reference for the inode that they return, and is otherwise as it was. They return
unless the cache has no two entries to spare. -/
theorem path_resolution (rest : s.AtRest sb) (whole : ¬ Dangling sb s.disk) (dev : Devsw) (cwd : Fin ninode)
    (used : 0 < (s.inode cwd).ref) (clean : 0 ∉ path) (name : Chars) :
    let start := if path.headD 0 = slash then rootino else (s.inode cwd).inum
    (match namei sb dev cwd path s with
      | some (r, t) => Found s (s.disk.walk sb start (components path)) r t
      | none => Crowded s.inode) ∧
    match nameiparent sb dev cwd path name s with
    | some ((r, name'), t) =>
      Found s ((s.disk.walkParent sb start (components path)).map Prod.fst) r t ∧
      ∀ j last, s.disk.walkParent sb start (components path) = some (j, last) → keyOf name' = last
    | none => Crowded s.inode := by
  intro start
  constructor
  · obtain ⟨r, name', t, run, gives, _⟩ | ⟨run, full⟩ :=
      namex_spec rest dev used clean false (charsOf [])
    · rw [resolve_eq_walk] at gives
      simp only [namei, bind, run]
      exact gives.found rest.holding
    · simp only [namei, bind, run]
      exact full.resolve_right whole
  · obtain ⟨r, name', t, run, gives, named⟩ | ⟨run, full⟩ := namex_spec rest dev used clean true name
    · rw [resolve_eq_walkParent] at gives
      simp only [nameiparent, run]
      refine ⟨gives.found rest.holding, fun j last there => ?_⟩
      obtain ⟨_, gives⟩ := gives
      simp only [start] at there
      rw [Cached.start, there] at gives
      obtain ⟨b, rfl, _⟩ := gives
      have last_eq := named rfl (Option.some_ne_none b)
      rw [(walkParent_some there).1] at last_eq
      exact (Option.some.inj last_eq).symm
    · simp only [nameiparent, run]
      exact full.resolve_right whole

end walks

/-! The file system that mkfs makes, with its root as current directory. -/

theorem fresh_dir {i : Nat} (hi : i < mkfs.ninodes)
    (type : ((freshDisk mkfs).dinode mkfs i).type = tDir) : i = rootino := by
  by_contra other
  rw [mkfs_roomy.dinode_fresh hi, if_neg other] at type
  exact absurd type (by decide)

theorem inum_rootEntries {de : Dirent} (mem : de ∈ rootEntries) : de.inum = 0 ∨ de.inum = 1 := by
  have all : ∀ de ∈ rootEntries, de.inum = 0 ∨ de.inum = 1 := by decide +kernel
  exact all de mem

theorem fresh_tree : Tree mkfs (freshDisk mkfs) where
  wellFormed := mkfs_roomy.fresh_wellFormed
  root := ⟨mkfs_roomy.root, root_isDir.live⟩
  listed i hi type := by
    obtain rfl := fresh_dir hi type
    refine ⟨rootEntries, root_isDir.content, fun de mem used => ?_⟩
    rw [(inum_rootEntries mem).resolve_left used]
    exact mkfs_roomy.root

theorem fresh_whole : ¬ Dangling mkfs (freshDisk mkfs) := by
  rintro ⟨i, c, j, hi, child, dead⟩
  unfold Disk.child at child
  split at child
  case isFalse => cases child
  case isTrue type =>
    obtain rfl := fresh_dir hi type
    rw [root_isDir.entries_eq] at child
    obtain ⟨de, found, rfl⟩ := Option.map_eq_some_iff.mp child
    have named := (inum_rootEntries (List.mem_of_find?_eq_some found)).resolve_left
      (inum_of_lookup found)
    rw [named] at dead
    exact root_isDir.live dead

def firstEntry : Fin ninode := ⟨0, by decide⟩

def freshCached : Cached where
  disk := freshDisk mkfs
  inode a := ⟨rootdev, rootino, if a = firstEntry then 1 else 0, false, false, Dinode.zero⟩

theorem ref_freshCached {a : Fin ninode} (used : 0 < (freshCached.inode a).ref) : a = firstEntry := by
  by_contra other
  simp [freshCached, other] at used

theorem fresh_atRest : freshCached.AtRest mkfs where
  tree := fresh_tree
  holding :=
    { entry := fun a =>
        { ref := rfl
          same := fun _ => rfl
          dev := fun _ => rfl
          bound := fun _ => mkfs_roomy.root
          live := fun _ => root_isDir.live
          copy := fun _ valid => by cases valid
          locked := by simp [freshCached]
          valid := fun lock => absurd lock (Finset.notMem_empty a) }
      unique := fun a b ha hb _ => (ref_freshCached ha).trans (ref_freshCached hb).symm
      who := fun p mem => absurd mem (Multiset.notMem_zero p) }
  kept i live := by
    by_cases root : i = rootino
    · exact .inr ⟨firstEntry, Nat.one_pos, root.symm⟩
    · have type := live.2
      change ((freshDisk mkfs).dinode mkfs i).type ≠ 0 at type
      rw [mkfs_roomy.dinode_fresh live.1, if_neg root] at type
      exact absurd rfl type

theorem not_crowded_fresh : ¬ Crowded freshCached.inode := by
  intro crowded
  have same := crowded ⟨1, by decide⟩ ⟨2, by decide⟩ rfl rfl
  exact absurd same (by decide)

theorem child_root_dot : (freshDisk mkfs).child mkfs rootino [46] = some rootino := by
  rw [Disk.child, if_pos root_isDir.type, root_isDir.entries_eq]
  decide +kernel

/-- The path "//." leads to the root. -/
theorem root_resolved :
    let dev : Devsw := ⟨fun _ => none, fun _ => none⟩
    ∃ a t, namei mkfs dev firstEntry [47, 47, 46] freshCached = some (some a, t) ∧
      (t.inode a).inum = rootino ∧ (t.inode a).ref = (freshCached.inode a).ref + 1 := by
  intro dev
  have clean : 0 ∉ ([47, 47, 46] : List UInt8) := by decide
  have found := (path_resolution fresh_atRest fresh_whole dev firstEntry Nat.one_pos clean (charsOf [])).1
  have walk : freshCached.disk.walk mkfs rootino (components [47, 47, 46]) = some rootino := by
    have names : components [47, 47, 46] = [[46]] := by decide
    rw [names, Disk.walk, List.foldlM_cons]
    change ((freshDisk mkfs).child mkfs rootino [46]).bind _ = _
    rw [child_root_dot]
    rfl
  cases run : namei mkfs dev firstEntry [47, 47, 46] freshCached with
  | none =>
    rw [run] at found
    exact absurd found not_crowded_fresh
  | some result =>
    obtain ⟨r, t⟩ := result
    rw [run] at found
    change Found freshCached (freshCached.disk.walk mkfs rootino _) r t at found
    rw [walk] at found
    have inode := found.inode
    cases r with
    | none => cases inode
    | some a =>
      refine ⟨a, t, rfl, (Prod.mk.inj (Option.some.inj inode)).2, ?_⟩
      rw [found.refs a, if_pos rfl]

end Xv6.Fs
