import Mathlib
import Almos.Machine

/-!
# File descriptors of a task

The tables of a task are pages of pointers to files. `tbl k i` is the word `i` of table `k`; the word
`fdsPerTbl` of it is the one behind its page. The lock of the tables makes `task_fd_get` and
`task_fd_put` one step each.
-/
namespace Almos.FdTable

/-- `NULL`, the reserved value `0x1` or an open file. -/
inductive Slot (φ : Type*)
  | null
  | reserved
  | file (f : φ)
deriving DecidableEq

/-- `struct fd_info_s` -/
structure FdInfo (φ : Type*) where
  first : ℕ
  last : ℕ
  count : ℕ
  fdsPerTbl : ℕ
  tbl : ℕ → ℕ → Slot φ

variable {φ : Type*} [DecidableEq φ]

namespace FdInfo

/-- `task_fd_lookup` -/
def lookup (info : FdInfo φ) (fd : ℕ) : Slot φ := info.tbl (fd / info.fdsPerTbl) (fd % info.fdsPerTbl)

def write (info : FdInfo φ) (k i : ℕ) (slot : Slot φ) : FdInfo φ :=
  { info with tbl := Function.update info.tbl k (Function.update (info.tbl k) i slot) }

/-- `task_fd_set` -/
def set (info : FdInfo φ) (fd : ℕ) (slot : Slot φ) : FdInfo φ :=
  info.write (fd / info.fdsPerTbl) (fd % info.fdsPerTbl) slot

/-- `task_fd_put` -/
def put (info : FdInfo φ) (fd : ℕ) : FdInfo φ :=
  { info.set fd .null with first := if fd < info.first then fd else info.first }

/-- The tables after `task_fd_init` -/
structure Init (info : FdInfo φ) (count fdsPerTbl : ℕ) : Prop where
  first : info.first = 0
  last : info.last = 2
  count_eq : info.count = count
  fdsPerTbl_eq : info.fdsPerTbl = fdsPerTbl
  tbl : ∀ k < count, ∀ i < fdsPerTbl, info.tbl k i = .null

end FdInfo

/-- The inner loop of `task_fd_get`, of at most the given rounds. -/
def scanTbl (tbl : ℕ → Slot φ) (limit fdsPerTbl : ℕ) : ℕ → ℕ → ℕ → ℕ × ℕ
  | 0, i, fd => (i, fd)
  | rounds + 1, i, fd =>
    if tbl i ≠ .null ∧ fd < limit ∧ i < fdsPerTbl then
      scanTbl tbl limit fdsPerTbl rounds (i + 1) (fd + 1)
    else (i, fd)

/-- Where the scan of `task_fd_get` ends, the slot it finds and the words it has read. -/
structure Scan where
  fd : ℕ
  found : Option (ℕ × ℕ)
  reads : List (ℕ × ℕ)

/-- The outer loop; `none` if the rounds do not suffice. -/
def scanTbls (info : FdInfo φ) (limit : ℕ) : ℕ → ℕ → List (ℕ × ℕ) → Option Scan
  | 0, _, _ => none
  | rounds + 1, fd, reads =>
    if fd < limit ∧ fd / info.fdsPerTbl < info.count then
      let k := fd / info.fdsPerTbl
      let i := fd % info.fdsPerTbl
      let stop := scanTbl (info.tbl k) limit info.fdsPerTbl info.fdsPerTbl i fd
      let reads := reads ++ (List.range' i (stop.1 - i + 1)).map fun i => (k, i)
      if info.tbl k stop.1 = .null then some ⟨stop.2, some (k, stop.1), reads⟩
      else scanTbls info limit rounds stop.2 reads
    else some ⟨fd, none, reads⟩

/-- `task_fd_get`, with the descriptor, whether there is one and the words it reads -/
def taskFdGet (info : FdInfo φ) (limit : ℕ) : Option (FdInfo φ × ℕ × Bool × List (ℕ × ℕ)) :=
  (scanTbls info limit (info.count + 1) info.first []).map fun scan =>
    match scan.found with
    | some (k, i) =>
      ({ info.write k i .reserved with
        first := scan.fd
        last := if info.last < scan.fd then scan.fd else info.last }, scan.fd, true, scan.reads)
    | none => (info, scan.fd, false, scan.reads)

section ScanTbl
variable {fdsPerTbl rounds i : ℕ}

lemma scanTbl_spec (tbl : ℕ → Slot φ) (limit fd : ℕ) (hrounds : fdsPerTbl - i ≤ rounds) :
    ∃ m, scanTbl tbl limit fdsPerTbl rounds i fd = (i + m, fd + m) ∧
      (∀ j < m, tbl (i + j) ≠ .null ∧ fd + j < limit ∧ i + j < fdsPerTbl) ∧
      (tbl (i + m) = .null ∨ limit ≤ fd + m ∨ fdsPerTbl ≤ i + m) := by
  induction rounds generalizing i fd with
  | zero => exact ⟨0, rfl, fun j hj => absurd hj (Nat.not_lt_zero j), .inr (.inr (by omega))⟩
  | succ rounds ih =>
    rw [scanTbl]
    by_cases hgo : tbl i ≠ .null ∧ fd < limit ∧ i < fdsPerTbl
    · rw [if_pos hgo]
      obtain ⟨m, hscan, hpassed, hstop⟩ := ih (i := i + 1) (fd + 1) (by omega)
      have hplace : ∀ n, n + 1 + m = n + (m + 1) := fun n => by omega
      refine ⟨m + 1, by rw [hscan, hplace, hplace], fun j hj => ?_, ?_⟩
      · cases j with
        | zero => exact hgo
        | succ j =>
          have hpj := hpassed j (by omega)
          rwa [Nat.add_assoc, Nat.add_assoc, Nat.add_comm 1 j] at hpj
      · rwa [hplace, hplace] at hstop
    · rw [if_neg hgo]
      refine ⟨0, rfl, fun j hj => absurd hj (Nat.not_lt_zero j), ?_⟩
      rw [not_and_or, not_and_or, not_not] at hgo
      simpa using hgo

end ScanTbl

lemma scanTbls_reads {info : FdInfo φ} {limit rounds fd : ℕ} {reads : List (ℕ × ℕ)} {scan : Scan}
    (h : scanTbls info limit rounds fd reads = some scan) : reads ⊆ scan.reads := by
  induction rounds generalizing fd reads with
  | zero => cases h
  | succ rounds ih =>
    rw [scanTbls] at h
    dsimp only at h
    split_ifs at h with hgo hnull
    · obtain rfl := Option.some.inj h
      exact List.subset_append_left _ _
    · exact List.Subset.trans (List.subset_append_left _ _) (ih h)
    · obtain rfl := Option.some.inj h
      exact List.Subset.refl _

/-- What `task_fd_get` is to do: it reserves the lowest free descriptor, which is below the limit, or
there is none and nothing changes, and it reads no word outside the tables. -/
structure GetExact (info : FdInfo φ) (limit : ℕ) (r : FdInfo φ × ℕ × Bool × List (ℕ × ℕ)) : Prop where
  found : r.2.2.1 = true → r.2.1 < limit ∧ info.lookup r.2.1 = .null ∧
    (∀ fd < r.2.1, info.lookup fd ≠ .null) ∧ r.1.tbl = (info.set r.2.1 .reserved).tbl
  fails : r.2.2.1 = false ↔ ∀ fd < limit, info.lookup fd ≠ .null
  unchanged : r.2.2.1 = false → r.1 = info
  inside : ∀ k i, (k, i) ∈ r.2.2.2 → k < info.count ∧ i < info.fdsPerTbl

/-- The scan ends in the table where it starts: it does not start, or there is a free descriptor below
the limit there, or the limit is there and is a used descriptor. -/
def Fits (info : FdInfo φ) (limit : ℕ) : Prop :=
  limit ≤ info.first ∨
    (∃ fd, info.first ≤ fd ∧ fd < limit ∧ fd / info.fdsPerTbl = info.first / info.fdsPerTbl ∧
      info.lookup fd = .null) ∨
    limit / info.fdsPerTbl = info.first / info.fdsPerTbl ∧ info.lookup limit ≠ .null

instance (info : FdInfo φ) (limit : ℕ) : Decidable (Fits info limit) :=
  decidable_of_iff (limit ≤ info.first ∨
      (∃ fd ∈ List.range limit, info.first ≤ fd ∧
        fd / info.fdsPerTbl = info.first / info.fdsPerTbl ∧ info.lookup fd = .null) ∨
      limit / info.fdsPerTbl = info.first / info.fdsPerTbl ∧ info.lookup limit ≠ .null) <| by
    simp only [Fits, List.mem_range, and_left_comm]

/-- The descriptors below the first one that may be free are used. -/
structure InfoOk (count fdsPerTbl : ℕ) (info : FdInfo φ) : Prop where
  count_eq : info.count = count
  fdsPerTbl_eq : info.fdsPerTbl = fdsPerTbl
  below : ∀ fd < info.first, info.lookup fd ≠ .null

section Get
variable {count fdsPerTbl limit : ℕ} {info : FdInfo φ}

lemma div_add_of_lt {n m k : ℕ} (hn : 0 < n) (h : m % n + k < n) :
    (m + k) / n = m / n ∧ (m + k) % n = m % n + k := by
  have hm := Nat.div_add_mod m n
  have hsum : m + k = n * (m / n) + (m % n + k) := by omega
  constructor
  · rw [hsum, Nat.mul_add_div hn, Nat.div_eq_of_lt h, Nat.add_zero]
  · rw [hsum, Nat.mul_add_mod, Nat.mod_eq_of_lt h]

lemma taskFdGet_first (hpos : 0 < fdsPerTbl) (h : InfoOk count fdsPerTbl info)
    (hlimit : limit ≤ count * fdsPerTbl) (hstart : info.first < limit) :
    ∃ m, (∀ j < m, info.lookup (info.first + j) ≠ .null ∧ info.first + j < limit ∧
        info.first % fdsPerTbl + j < fdsPerTbl) ∧
      let k := info.first / fdsPerTbl
      let i := info.first % fdsPerTbl + m
      let reads := (List.range' (info.first % fdsPerTbl) (m + 1)).map fun i => (k, i)
      (info.tbl k i = .null ∨ limit ≤ info.first + m ∨ fdsPerTbl ≤ i) ∧
      scanTbls info limit (info.count + 1) info.first [] =
        if info.tbl k i = .null then some ⟨info.first + m, some (k, i), reads⟩
        else scanTbls info limit info.count (info.first + m) reads := by
  have htable : info.first / fdsPerTbl < count :=
    Nat.div_lt_of_lt_mul (by rw [Nat.mul_comm]; omega)
  obtain ⟨m, hscan, hpassed, hstop⟩ :=
    scanTbl_spec (info.tbl (info.first / fdsPerTbl)) limit info.first
      (Nat.sub_le fdsPerTbl (info.first % fdsPerTbl))
  refine ⟨m, fun j hj => ?_, hstop, ?_⟩
  · obtain ⟨hused, hlt, hin⟩ := hpassed j hj
    obtain ⟨hdiv, hmod⟩ := div_add_of_lt hpos hin
    refine ⟨?_, hlt, hin⟩
    rw [FdInfo.lookup, h.fdsPerTbl_eq, hdiv, hmod]
    exact hused
  · rw [scanTbls, h.fdsPerTbl_eq, h.count_eq, if_pos ⟨hstart, htable⟩]
    simp only [hscan, Nat.add_sub_cancel_left, List.nil_append]

lemma same_table {n fd first : ℕ} (hn : 0 < n) (hle : first ≤ fd) (hdiv : fd / n = first / n) :
    ∃ j, fd = first + j ∧ first % n + j < n := by
  refine ⟨fd - first, by omega, ?_⟩
  have hfd := Nat.div_add_mod fd n
  have hfirst := Nat.div_add_mod first n
  have hlt := Nat.mod_lt fd hn
  rw [hdiv] at hfd
  omega

/-- `task_fd_get` does what it is to do exactly if its scan ends in the table where it starts. -/
lemma taskFdGet_exact_iff (hpos : 0 < fdsPerTbl) (h : InfoOk count fdsPerTbl info)
    (hlimit : limit ≤ count * fdsPerTbl) :
    (∃ r, taskFdGet info limit = some r ∧ GetExact info limit r) ↔ Fits info limit := by
  rcases Nat.lt_or_ge info.first limit with hstart | hge
  · obtain ⟨m, hpassed, hstop, hscan⟩ := taskFdGet_first hpos h hlimit hstart
    have hstartMod := Nat.mod_lt info.first hpos
    have htable : info.first / fdsPerTbl < count :=
      Nat.div_lt_of_lt_mul (by rw [Nat.mul_comm]; omega)
    have hmLimit : info.first + m ≤ limit := by
      cases m with
      | zero => omega
      | succ m =>
        have := (hpassed m (Nat.lt_succ_self m)).2.1
        omega
    have hbelow : ∀ fd < info.first + m, info.lookup fd ≠ .null := by
      intro fd hfd
      rcases Nat.lt_or_ge fd info.first with hlt | hle
      · exact h.below fd hlt
      · have hused := (hpassed (fd - info.first) (by omega)).1
        rwa [Nat.add_sub_cancel' hle] at hused
    rcases Nat.lt_or_ge (info.first % fdsPerTbl + m) fdsPerTbl with hin | hout
    · -- the scan stops in the table
      obtain ⟨hdiv, hmod⟩ := div_add_of_lt hpos hin
      have hlookup : info.lookup (info.first + m) =
          info.tbl (info.first / fdsPerTbl) (info.first % fdsPerTbl + m) := by
        rw [FdInfo.lookup, h.fdsPerTbl_eq, hdiv, hmod]
      have hinside : ∀ k i, (k, i) ∈ (List.range' (info.first % fdsPerTbl) (m + 1)).map
          (fun i => (info.first / fdsPerTbl, i)) → k < info.count ∧ i < info.fdsPerTbl := by
        intro k i hmem
        obtain ⟨j, hj, heq⟩ := List.mem_map.mp hmem
        rw [List.mem_range'_1] at hj
        rw [Prod.mk.injEq] at heq
        rw [h.count_eq, h.fdsPerTbl_eq]
        omega
      rcases eq_or_ne (info.lookup (info.first + m)) .null with hnull | hused
      · have hget : taskFdGet info limit = some
            ({ info.write (info.first / fdsPerTbl) (info.first % fdsPerTbl + m) .reserved with
              first := info.first + m
              last := if info.last < info.first + m then info.first + m else info.last },
              info.first + m, true, (List.range' (info.first % fdsPerTbl) (m + 1)).map
                fun i => (info.first / fdsPerTbl, i)) := by
          rw [taskFdGet, hscan, if_pos (hlookup ▸ hnull)]
          rfl
        rcases Nat.lt_or_ge (info.first + m) limit with hfree | hend
        · refine iff_of_true ⟨_, hget, ?_, ?_, by simp, hinside⟩
            (.inr (.inl ⟨info.first + m, by omega, hfree, by rw [h.fdsPerTbl_eq, hdiv], hnull⟩))
          · refine fun _ => ⟨hfree, hnull, hbelow, ?_⟩
            simp only [FdInfo.set, FdInfo.write, h.fdsPerTbl_eq, hdiv, hmod]
          · exact iff_of_false (by simp) fun hall => hall _ hfree hnull
        · refine iff_of_false ?_ ?_
          · rintro ⟨r, hr, hexact⟩
            rw [hget] at hr
            obtain rfl := Option.some.inj hr
            have := (hexact.found rfl).1
            simp only at this
            omega
          · rintro (hle | ⟨fd, -, hfd, -, hfree⟩ | ⟨-, hlast⟩)
            · omega
            · exact hbelow fd (by omega) hfree
            · obtain rfl : limit = info.first + m := by omega
              exact hlast hnull
      · -- the limit is in the table, and all descriptors below it are used
        have hend : limit = info.first + m := by
          rcases hstop with hnull | hle | hle
          · exact absurd (hlookup.trans hnull) hused
          · omega
          · omega
        obtain ⟨c, hc⟩ := Nat.exists_eq_succ_of_ne_zero (Nat.ne_of_gt (Nat.zero_lt_of_lt htable))
        have hget : taskFdGet info limit = some (info, info.first + m, false,
            (List.range' (info.first % fdsPerTbl) (m + 1)).map
              fun i => (info.first / fdsPerTbl, i)) := by
          rw [taskFdGet, hscan, if_neg (hlookup ▸ hused), h.count_eq, hc, scanTbls,
            if_neg (by omega)]
          rfl
        refine iff_of_true ⟨_, hget, by simp, ?_, fun _ => rfl, hinside⟩
          (.inr (.inr ⟨by rw [h.fdsPerTbl_eq, hend, hdiv], hend ▸ hused⟩))
        exact iff_of_true rfl fun fd hfd => hbelow fd (by omega)
    · -- the table is full from the start of the scan on
      refine iff_of_false ?_ ?_
      · rintro ⟨r, hr, hexact⟩
        obtain ⟨scan, hscanEq, hrEq⟩ := Option.map_eq_some_iff.mp hr
        have hreads : r.2.2.2 = scan.reads := by
          rw [← hrEq]
          cases scan.found <;> rfl
        have hmem : (info.first / fdsPerTbl, fdsPerTbl) ∈
            (List.range' (info.first % fdsPerTbl) (m + 1)).map
              fun i => (info.first / fdsPerTbl, i) := by
          refine List.mem_map.mpr ⟨fdsPerTbl, ?_, rfl⟩
          rw [List.mem_range'_1]
          omega
        have hsub : (info.first / fdsPerTbl, fdsPerTbl) ∈ scan.reads := by
          rw [hscan] at hscanEq
          split_ifs at hscanEq with hnull
          · rw [← Option.some.inj hscanEq]
            exact hmem
          · exact scanTbls_reads hscanEq hmem
        have := (hexact.inside _ _ (hreads ▸ hsub)).2
        rw [h.fdsPerTbl_eq] at this
        exact lt_irrefl _ this
      · rw [Fits, h.fdsPerTbl_eq]
        rintro (hle | ⟨fd, hle, -, hdiv, hfree⟩ | ⟨hdiv, -⟩)
        · omega
        · obtain ⟨j, rfl, hj⟩ := same_table hpos hle hdiv
          exact hbelow _ (by omega) hfree
        · obtain ⟨j, hj, hjlt⟩ := same_table hpos hstart.le hdiv
          have := (hpassed j (by omega)).2.1
          omega
  · have hget : taskFdGet info limit = some (info, info.first, false, []) := by
      rw [taskFdGet, scanTbls, if_neg (by omega)]
      rfl
    refine iff_of_true ⟨_, hget, by simp, ?_, fun _ => rfl, by simp⟩ (.inl hge)
    exact iff_of_true rfl fun fd hfd => h.below fd (by omega)

end Get

omit [DecidableEq φ] in
lemma FdInfo.lookup_set (info : FdInfo φ) (fd q : ℕ) (slot : Slot φ) :
    (info.set fd slot).lookup q = if q = fd then slot else info.lookup q := by
  simp only [FdInfo.set, FdInfo.write, FdInfo.lookup]
  rcases eq_or_ne q fd with rfl | hne
  · simp
  · rw [if_neg hne]
    by_cases hdiv : q / info.fdsPerTbl = fd / info.fdsPerTbl
    · have hmod : q % info.fdsPerTbl ≠ fd % info.fdsPerTbl := by
        intro hmod
        refine hne ?_
        rw [← Nat.div_add_mod q info.fdsPerTbl, hdiv, hmod, Nat.div_add_mod]
      rw [hdiv, Function.update_self, Function.update_of_ne hmod]
    · rw [Function.update_of_ne hdiv]

omit [DecidableEq φ] in
lemma FdInfo.lookup_put (info : FdInfo φ) (fd q : ℕ) :
    (info.put fd).lookup q = if q = fd then .null else info.lookup q :=
  info.lookup_set fd q .null

lemma taskFdGet_fields {info t : FdInfo φ} {limit fd : ℕ} {reads : List (ℕ × ℕ)}
    (h : taskFdGet info limit = some (t, fd, true, reads)) :
    t.first = fd ∧ t.last = (if info.last < fd then fd else info.last) ∧ t.count = info.count ∧
      t.fdsPerTbl = info.fdsPerTbl := by
  obtain ⟨scan, -, hscan⟩ := Option.map_eq_some_iff.mp h
  cases hfound : scan.found with
  | none =>
    rw [hfound] at hscan
    cases hscan
  | some slot =>
    rw [hfound] at hscan
    cases hscan
    exact ⟨rfl, rfl, rfl, rfl⟩

/-- A descriptor is reserved, a reserved one gets its file, and a used one is released. -/
inductive FdEvent (φ : Type*)
  | get (limit : ℕ)
  | set (fd : ℕ) (file : φ)
  | put (fd : ℕ)

def fdStep (info : FdInfo φ) : FdEvent φ → Option (FdInfo φ)
  | .get limit =>
      if limit ≤ info.count * info.fdsPerTbl then (taskFdGet info limit).map Prod.fst else none
  | .set fd file => if info.lookup fd = .reserved then some (info.set fd (.file file)) else none
  | .put fd => if info.lookup fd ≠ .null then some (info.put fd) else none

def fdMachine (φ : Type*) [DecidableEq φ] (count fdsPerTbl : ℕ) :
    Machine (FdInfo φ) (FdEvent φ) where
  init info := info.Init count fdsPerTbl
  step := fdStep

/-- The scans of the descriptors that are asked for end in the table where they start. -/
def FitsGuard (info : FdInfo φ) : FdEvent φ → Prop
  | .get limit => Fits info limit
  | _ => True

instance (info : FdInfo φ) (e : FdEvent φ) : Decidable (FitsGuard info e) :=
  match e with
  | .get limit => inferInstanceAs (Decidable (Fits info limit))
  | .set .. | .put _ => inferInstanceAs (Decidable True)

variable {count fdsPerTbl limit : ℕ} {info t : FdInfo φ}

lemma InfoOk.get (hpos : 0 < fdsPerTbl) (h : InfoOk count fdsPerTbl info)
    (hlimit : limit ≤ count * fdsPerTbl) (hfits : Fits info limit) {fd : ℕ} {found : Bool}
    {reads : List (ℕ × ℕ)} (hget : taskFdGet info limit = some (t, fd, found, reads)) :
    InfoOk count fdsPerTbl t := by
  obtain ⟨r, hr, hexact⟩ := (taskFdGet_exact_iff hpos h hlimit).mpr hfits
  obtain rfl := Option.some.inj (hget.symm.trans hr)
  cases found with
  | false =>
    obtain rfl := hexact.unchanged rfl
    exact h
  | true =>
    obtain ⟨-, -, hbelow, htbl⟩ := hexact.found rfl
    obtain ⟨hfirst, -, hcount, hfds⟩ := taskFdGet_fields hget
    refine ⟨hcount.trans h.count_eq, hfds.trans h.fdsPerTbl_eq, fun q hq => ?_⟩
    rw [hfirst] at hq
    have hlookup : t.lookup q = (info.set fd .reserved).lookup q := by
      simp only at htbl
      rw [FdInfo.lookup, htbl, hfds]
      rfl
    rw [hlookup, info.lookup_set, if_neg hq.ne]
    exact hbelow q hq

lemma InfoOk.step (hpos : 0 < fdsPerTbl) (h : InfoOk count fdsPerTbl info) {e : FdEvent φ}
    (hguard : FitsGuard info e) (hstep : fdStep info e = some t) : InfoOk count fdsPerTbl t := by
  cases e with
  | get limit =>
    simp only [fdStep, h.count_eq, h.fdsPerTbl_eq] at hstep
    split_ifs at hstep with hlimit
    obtain ⟨⟨u, fd, found, reads⟩, hget, rfl⟩ := Option.map_eq_some_iff.mp hstep
    exact h.get hpos hlimit hguard hget
  | set fd file =>
    simp only [fdStep] at hstep
    split_ifs at hstep with hreserved
    obtain rfl := Option.some.inj hstep
    refine ⟨h.count_eq, h.fdsPerTbl_eq, fun q hq => ?_⟩
    rw [info.lookup_set]
    split_ifs
    · simp
    · exact h.below q hq
  | put fd =>
    simp only [fdStep] at hstep
    split_ifs at hstep with hused
    obtain rfl := Option.some.inj hstep
    refine ⟨h.count_eq, h.fdsPerTbl_eq, fun q hq => ?_⟩
    have hfirst : (info.put fd).first = if fd < info.first then fd else info.first := rfl
    rw [hfirst] at hq
    rw [info.lookup_put]
    split_ifs at hq with hlow
    · rw [if_neg hq.ne]
      exact h.below q (hq.trans hlow)
    · rw [if_neg (by omega)]
      exact h.below q hq

/-- In every run whose scans end in the table where they start, a descriptor is given as it is to be
exactly if the scan for it ends there, too. -/
theorem fd_get_exact (hpos : 0 < fdsPerTbl) (h : (fdMachine φ count fdsPerTbl).Reach FitsGuard info)
    (hlimit : limit ≤ count * fdsPerTbl) :
    (∃ r, taskFdGet info limit = some r ∧ GetExact info limit r) ↔ Fits info limit := by
  have hok : InfoOk count fdsPerTbl info := by
    refine h.invariant (I := InfoOk count fdsPerTbl) (fun info hinit => ?_)
      fun info e t hok hguard hstep => hok.step hpos hguard hstep
    refine ⟨hinit.count_eq, hinit.fdsPerTbl_eq, fun fd hfd => ?_⟩
    rw [hinit.first] at hfd
    exact absurd hfd (Nat.not_lt_zero fd)
  exact taskFdGet_exact_iff hpos hok hlimit

def newInfo : FdInfo ℕ := ⟨0, 2, 1, 2, fun _ _ => .null⟩

lemma newInfo_init : newInfo.Init 1 2 := ⟨rfl, rfl, rfl, rfl, fun _ _ _ _ => rfl⟩

/-- Both descriptors are given and one is released: it is given again. -/
theorem fd_get_exact_two : ∃ info, (fdMachine ℕ 1 2).Reach FitsGuard info ∧
    info.lookup 0 = .null ∧ info.lookup 1 = .file 7 ∧
    ∃ r, taskFdGet info 2 = some r ∧ GetExact info 2 r := by
  have hrun : (((fdMachine ℕ 1 2).restrict fun info e => decide (FitsGuard info e)).run newInfo
      [.get 2, .set 0 5, .get 2, .set 1 7, .put 0]).map (fun info =>
        decide (info.lookup 0 = .null ∧ info.lookup 1 = .file 7 ∧ Fits info 2)) = some true := by
    decide +kernel
  obtain ⟨info, hinfo, hvalues⟩ := Option.map_eq_some_iff.mp hrun
  obtain ⟨hfree, hfile, hfits⟩ := of_decide_eq_true hvalues
  have hreach := Machine.Reach.of_run (fun _ _ => of_decide_eq_true) newInfo_init hinfo
  exact ⟨info, hreach, hfree, hfile,
    (fd_get_exact (by decide) hreach (by decide)).mpr hfits⟩

/-- One descriptor in a table of two, and the limit behind it: the free descriptor at the limit is
given. -/
theorem limit_is_given : ¬ ∀ info : FdInfo ℕ, (fdMachine ℕ 1 2).Reachable info → ∀ limit ≤ 2,
    ∃ r, taskFdGet info limit = some r ∧ GetExact info limit r := by
  intro h
  have hgot : (fdMachine ℕ 1 2).Reachable (newInfo.set 0 .reserved) :=
    .step (.init newInfo_init) trivial (e := .get 1) rfl
  obtain ⟨r, hr, hexact⟩ := h _ hgot 1 (by decide)
  have hget : taskFdGet (newInfo.set 0 .reserved) 1 = some (_, 1, true, _) := rfl
  rw [hget] at hr
  obtain rfl := Option.some.inj hr
  exact absurd (hexact.found rfl).1 (by decide)

end Almos.FdTable
