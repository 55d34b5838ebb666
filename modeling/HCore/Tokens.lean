import HCore.Machine
import HCore.MaximalRuns
import Mathlib.Data.List.Perm.Subperm

/-!
The tokenizer. It pushes a slot for each token when it comes to the first byte
of it, and counts the others up in place; the array moves as it grows, and its
counters have 32 bits. The second form copies each token and puts a zero
behind it. A pool is the sequence of its answers.
-/

namespace HCore.Tokens

open Machine MaximalRuns

/-- The `hcore_str_t` that is cut. There are no objects of more than
`PTRDIFF_MAX` bytes. -/
structure Source where
  data : ℕ
  len : ℕ
  small : len < 2 ^ 63

/-- The address of the block for the question with this number and size, and
whether an array that is full at this time can grow where it lies. Blocks are
apart from the source and from one another. -/
structure Pool (src : Source) where
  place : ℕ → ℕ → Option ℕ
  inPlace : ℕ → Bool
  off_source : ∀ {i n a}, place i n = some a → a + n ≤ src.data ∨ src.data + src.len ≤ a
  apart : ∀ {i n a j m b}, i < j → place i n = some a → place j m = some b →
    a + n ≤ b ∨ b + m ≤ a

/-- The number of the questions to a pool, and of the refusals. -/
structure Asked where
  count : ℕ
  refusals : ℕ

/-- `hcore_palloc` -/
def palloc {src : Source} (pool : Pool src) (q : Asked) (n : ℕ) : Option ℕ × Asked :=
  match pool.place q.count n with
  | none => (none, ⟨q.count + 1, q.refusals + 1⟩)
  | some a => (some a, ⟨q.count + 1, q.refusals⟩)

/-- `hcore_array_t` of `hcore_str_t`, with the counters as they are stored;
`room` is the number of slots in the block of `elts`. -/
structure TokenArray where
  elts : ℕ → Option Slice
  nelts : ℕ
  nalloc : ℕ
  room : ℕ

/-- `sizeof(hcore_array_t)`. -/
def arraySize : ℕ := 40

/-- `sizeof(hcore_str_t)`. -/
def strSize : ℕ := 16

/-- `hcore_array_create(pool, n, sizeof(hcore_str_t))`. -/
def arrayCreate {src : Source} (pool : Pool src) (q : Asked) (n : ℕ) :
    Option TokenArray × Asked :=
  match palloc pool q arraySize with
  | (none, q) => (none, q)
  | (some _, q) =>
    match palloc pool q (n * strSize) with
    | (none, q) => (none, q)
    | (some _, q) => (some ⟨fun _ => none, 0, n, n⟩, q)

/-- What a push does with a full array: it grows by a slot where it lies, or
moves to a block of twice the size. -/
def arrayGrow {src : Source} (pool : Pool src) (q : Asked) (a : TokenArray) :
    Option TokenArray × Asked :=
  if a.nelts = a.nalloc then
    if pool.inPlace q.count then
      (some { a with nalloc := toUInt32 ((a.nalloc + 1 : ℕ) : ℤ), room := a.room + 1 },
        ⟨q.count + 1, q.refusals⟩)
    else
      match palloc pool q (2 * (strSize * a.nalloc)) with
      | (none, q) => (none, q)
      | (some _, q) =>
        (some ⟨fun i => if i < a.nalloc then a.elts i else none, a.nelts,
          toUInt32 ((a.nalloc * 2 : ℕ) : ℤ), 2 * a.nalloc⟩, q)
  else (some a, q)

/-- `hcore_array_push`, with the index of the new slot. -/
def arrayPush {src : Source} (pool : Pool src) (q : Asked) (a : TokenArray) :
    Option (TokenArray × ℕ) × Asked :=
  match arrayGrow pool q a with
  | (none, q) => (none, q)
  | (some a, q) => (some ({ a with nelts := toUInt32 ((a.nelts + 1 : ℕ) : ℤ) }, a.nelts), q)

/-- A write to the slot with this index. -/
def TokenArray.write (a : TokenArray) (i : ℕ) (t : Slice) : Exec TokenArray :=
  if i < a.room then pure { a with elts := Function.update a.elts i (some t) } else undefined

/-- `str->len++` -/
def TokenArray.lengthen (a : TokenArray) (i : ℕ) : Exec TokenArray :=
  match a.elts i with
  | none => undefined
  | some t => a.write i ⟨t.data, toUInt64 ((t.len + 1 : ℕ) : ℤ)⟩

/-- The bytes of a string before its zero. -/
abbrev Delims := { bytes : List UInt8 // (0 : UInt8) ∉ bytes }

/-- The loop over the delimiters. -/
def isDelim (c : UInt8) : List UInt8 → Bool
  | [] => false
  | d :: delims => if c = d then true else isDelim c delims

/-- The variables of the main loop; `str` is the index of the slot it points to. -/
structure Scan where
  arr : TokenArray
  start : Bool
  str : Option ℕ

/-- The first byte of a token: a new slot. -/
def beginToken {src : Source} (pool : Pool src) (p : ℕ) (s : Scan) (q : Asked) :
    Exec (Option Scan × Asked) :=
  match arrayPush pool q s.arr with
  | (none, q) => pure (none, q)
  | (some (a, i), q) => do
    let a ← a.write i ⟨p, 0⟩
    pure (some ⟨a, true, some i⟩, q)

/-- A byte of a token. -/
def tokenByte {src : Source} (pool : Pool src) (p : ℕ) (s : Scan) (q : Asked) :
    Exec (Option Scan × Asked) := do
  let r ← if s.start then pure (some s, q) else beginToken pool p s q
  match r with
  | (none, q) => pure (none, q)
  | (some s, q) =>
    match s.str with
    | none => pure (none, q)
    | some i => do
      let a ← s.arr.lengthen i
      pure (some { s with arr := a }, q)

/-- The main loop of `hcore_strtok`, with the number of bytes that are left. -/
def strtokFrom {src : Source} (pool : Pool src) (mem : ℕ → UInt8) (delims : Delims) :
    ℕ → ℕ → Scan → Asked → Exec (Option Scan × Asked)
  | 0, _, s, q => pure (some s, q)
  | n + 1, p, s, q =>
    if isDelim (mem p) delims.1 then strtokFrom pool mem delims n (p + 1) { s with start := false } q
    else do
      let r ← tokenByte pool p s q
      match r with
      | (none, q) => pure (none, q)
      | (some s, q) => strtokFrom pool mem delims n (p + 1) s q

/-- `hcore_memcpy` of `n` bytes from `p` to `a`. -/
def memcpy (mem : ℕ → UInt8) (a p n : ℕ) : ℕ → UInt8 := fun x =>
  if a ≤ x ∧ x < a + n then mem (p + (x - a)) else mem x

/-- The byte at an address belongs to a token. -/
def IsToken (mem : ℕ → UInt8) (delims : Delims) (a : ℕ) : Prop := isDelim (mem a) delims.1 = false

instance (mem : ℕ → UInt8) (delims : Delims) : DecidablePred (IsToken mem delims) :=
  fun _ => inferInstanceAs (Decidable (_ = _))

/-- The array has these elements. -/
structure Holds (arr : TokenArray) (ts : List Slice) : Prop where
  nelts : arr.nelts = ts.length
  elts : ∀ i < ts.length, arr.elts i = ts[i]?

/-- There is a slot for the next element, or the array is found full; once the
capacity has wrapped, it is never found full again. -/
def Spare (arr : TokenArray) : Prop :=
  (arr.nelts ≤ arr.nalloc ∧ arr.nalloc ≤ arr.room ∧ 1 ≤ arr.nalloc) ∨
    (arr.nalloc < arr.nelts ∧ 2 ^ 32 ≤ arr.room)

section

variable {src : Source} {pool : Pool src} {mem : ℕ → UInt8} {delims : Delims} {arr : TokenArray}
  {ts : List Slice} {s : Scan} {n k : ℕ}

theorem palloc_cases (pool : Pool src) (q : Asked) (n : ℕ) :
    palloc pool q n = (none, ⟨q.count + 1, q.refusals + 1⟩) ∨
      ∃ a, pool.place q.count n = some a ∧
        palloc pool q n = (some a, ⟨q.count + 1, q.refusals⟩) := by
  unfold palloc
  cases h : pool.place q.count n with
  | none => exact Or.inl rfl
  | some a => exact Or.inr ⟨a, rfl, rfl⟩

theorem Spare.lt_room {arr : TokenArray} (h : Spare arr) (hlt : arr.nelts < 2 ^ 32) :
    arr.nelts ≤ arr.room := by
  unfold Spare at h
  omega

/-- A push is refused, or there is a slot behind the elements, which are kept. -/
theorem arrayPush_cases (pool : Pool src) (q : Asked) (hspare : Spare arr)
    (hlt : arr.nelts + 1 < 2 ^ 32) :
    (∃ q', arrayPush pool q arr = (none, q') ∧ q.refusals < q'.refusals) ∨
      ∃ arr' q', arrayPush pool q arr = (some (arr', arr.nelts), q') ∧
        q'.refusals = q.refusals ∧ arr'.nelts = arr.nelts + 1 ∧ arr.nelts < arr'.room ∧
        (∀ i < arr.nelts, arr'.elts i = arr.elts i) ∧ Spare arr' := by
  have hcount : toUInt32 ((arr.nelts + 1 : ℕ) : ℤ) = arr.nelts + 1 := toUInt32_of_lt hlt
  unfold Spare at hspare
  by_cases hfull : arr.nelts = arr.nalloc
  · by_cases hplace : pool.inPlace q.count
    · have hone : toUInt32 ((arr.nalloc + 1 : ℕ) : ℤ) = arr.nalloc + 1 :=
        toUInt32_of_lt (by omega)
      refine Or.inr ⟨⟨arr.elts, arr.nelts + 1, arr.nalloc + 1, arr.room + 1⟩,
        ⟨q.count + 1, q.refusals⟩, ?_, rfl, rfl, ?_, fun _ _ => rfl, ?_⟩
      · rw [arrayPush, arrayGrow, if_pos hfull, if_pos hplace]
        dsimp only
        rw [hcount, hone]
      · dsimp only
        omega
      · unfold Spare
        dsimp only
        omega
    · rcases palloc_cases pool q (2 * (strSize * arr.nalloc)) with hnone | ⟨a, -, hsome⟩
      · refine Or.inl ⟨⟨q.count + 1, q.refusals + 1⟩, ?_, Nat.lt_succ_self _⟩
        rw [arrayPush, arrayGrow, if_pos hfull, if_neg hplace, hnone]
      · refine Or.inr ⟨⟨fun i => if i < arr.nalloc then arr.elts i else none, arr.nelts + 1,
          toUInt32 ((arr.nalloc * 2 : ℕ) : ℤ), 2 * arr.nalloc⟩, ⟨q.count + 1, q.refusals⟩, ?_,
          rfl, rfl, ?_, fun i hi => if_pos (hfull ▸ hi), ?_⟩
        · rw [arrayPush, arrayGrow, if_pos hfull, if_neg hplace, hsome]
          dsimp only
          rw [hcount]
        · dsimp only
          omega
        · -- the product wraps where it comes to so many slots that none is missed
          unfold Spare toUInt32
          dsimp only
          omega
  · refine Or.inr ⟨{ arr with nelts := arr.nelts + 1 }, q, ?_, rfl, rfl, ?_, fun _ _ => rfl, ?_⟩
    · rw [arrayPush, arrayGrow, if_neg hfull]
      dsimp only
      rw [hcount]
    · dsimp only
      omega
    · unfold Spare
      dsimp only
      omega

theorem write_eq {i : ℕ} (hi : i < arr.room) (t : Slice) :
    arr.write i t = Except.ok { arr with elts := Function.update arr.elts i (some t) } := if_pos hi

/-- A write to an element. -/
theorem Holds.write {us : List Slice} {t u : Slice} (h : Holds arr (us ++ t :: ts))
    (hroom : arr.nelts ≤ arr.room) :
    ∃ arr', arr.write us.length u = Except.ok arr' ∧ Holds arr' (us ++ u :: ts) ∧
      arr'.nelts = arr.nelts ∧ arr'.nalloc = arr.nalloc ∧ arr'.room = arr.room := by
  have hlen : (us ++ u :: ts).length = (us ++ t :: ts).length := by simp
  have hnelts := h.nelts
  have hin : us.length < (us ++ t :: ts).length := by simp
  refine ⟨_, write_eq (by omega) u, ⟨h.nelts.trans hlen.symm, fun i hi => ?_⟩, rfl, rfl, rfl⟩
  by_cases heq : i = us.length
  · subst heq
    simp
  · have hold := h.elts i (hlen ▸ hi)
    change Function.update arr.elts us.length (some u) i = _
    rw [Function.update_of_ne heq, hold]
    rcases Nat.lt_or_ge i us.length with hlt | hge
    · rw [List.getElem?_append_left hlt, List.getElem?_append_left hlt]
    · have hbehind : i - us.length = (i - us.length - 1) + 1 := by omega
      rw [List.getElem?_append_right hge, List.getElem?_append_right hge, hbehind,
        List.getElem?_cons_succ, List.getElem?_cons_succ]

theorem Holds.get {us : List Slice} {t : Slice} (h : Holds arr (us ++ t :: ts)) :
    arr.elts us.length = some t := by
  rw [h.elts _ (by simp)]
  simp

/-- The new element behind the others. -/
theorem Holds.push {arr' : TokenArray} (h : Holds arr ts) (hnelts : arr'.nelts = arr.nelts + 1)
    (hroom : arr.nelts < arr'.room) (helts : ∀ i < arr.nelts, arr'.elts i = arr.elts i)
    (t : Slice) :
    ∃ arr'', arr'.write arr.nelts t = Except.ok arr'' ∧ Holds arr'' (ts ++ [t]) ∧
      arr''.nelts = arr'.nelts ∧ arr''.nalloc = arr'.nalloc ∧ arr''.room = arr'.room := by
  have hlen := h.nelts
  refine ⟨_, write_eq hroom t, ⟨?_, fun i hi => ?_⟩, rfl, rfl, rfl⟩
  · simp [hnelts, hlen]
  · change Function.update arr'.elts arr.nelts (some t) i = _
    rw [List.length_append, List.length_singleton] at hi
    by_cases heq : i = arr.nelts
    · rw [heq, Function.update_self, hlen, List.getElem?_concat_length]
    · have hlt : i < ts.length := by omega
      rw [Function.update_of_ne heq, helts i (by omega), h.elts i hlt,
        List.getElem?_append_left hlt]

/-- The last element gets longer. -/
theorem Holds.lengthen {us : List Slice} {d l : ℕ} (h : Holds arr (us ++ [⟨d, l⟩]))
    (hroom : arr.nelts ≤ arr.room) (hl : l + 1 < 2 ^ 64) :
    ∃ arr', arr.lengthen us.length = Except.ok arr' ∧ Holds arr' (us ++ [⟨d, l + 1⟩]) ∧
      arr'.nelts = arr.nelts ∧ arr'.nalloc = arr.nalloc ∧ arr'.room = arr.room := by
  obtain ⟨arr', hwrite, hleft⟩ := @Holds.write arr [] us ⟨d, l⟩ ⟨d, l + 1⟩ h hroom
  refine ⟨arr', ?_, hleft⟩
  rw [TokenArray.lengthen, h.get]
  dsimp only
  rw [toUInt64_of_lt hl]
  exact hwrite

theorem Spare.congr {arr' : TokenArray} (h : Spare arr) (hnelts : arr'.nelts = arr.nelts)
    (hnalloc : arr'.nalloc = arr.nalloc) (hroom : arr'.room = arr.room) : Spare arr' := by
  unfold Spare at h ⊢
  rwa [hnelts, hnalloc, hroom]

/-- The scan has come through `k` bytes, and these are their tokens. -/
structure Scanned (P : ℕ → Prop) [DecidablePred P] (lo k : ℕ) (s : Scan) (ts : List Slice) :
    Prop where
  runs : Runs P lo k ts
  count : ts.length = runCount P lo k
  holds : Holds s.arr ts
  spare : Spare s.arr
  closed : s.start = false → 0 < k → ¬ P (lo + k - 1)
  opened : s.start = true →
    ∃ us d l, ts = us ++ [⟨d, l⟩] ∧ d + l = lo + k ∧ s.str = some us.length

end

section

variable {src : Source} {P : ℕ → Prop} [DecidablePred P] {lo n k : ℕ} {s : Scan} {ts : List Slice}

theorem Scanned.skip (h : Scanned P lo k s ts) (hp : ¬ P (lo + k)) :
    Scanned P lo (k + 1) { s with start := false } ts where
  runs := h.runs.skip hp
  count := by rw [runCount_succ, if_neg (fun hbegins => hp hbegins.1), h.count, Nat.add_zero]
  holds := h.holds
  spare := h.spare
  closed _ _ := hp
  opened hstart := by cases hstart

/-- The last token gets longer by the byte behind it. -/
theorem Scanned.extend {us : List Slice} {d l : ℕ} {arr' : TokenArray}
    (hruns : Runs P lo k (us ++ [⟨d, l⟩])) (hcount : us.length + 1 = runCount P lo k)
    (hend : d + l = lo + k) (hp : P (lo + k)) (hholds : Holds arr' (us ++ [⟨d, l + 1⟩]))
    (hspare : Spare arr') (hstart : s.start = true) (hstr : s.str = some us.length) :
    Scanned P lo (k + 1) { s with arr := arr' } (us ++ [⟨d, l + 1⟩]) where
  runs := hruns.extend hend hp
  count := by
    have hlast : IsRun P lo k ⟨d, l⟩ := (hruns.mem_iff ⟨d, l⟩).mp (by simp)
    have hpos : 0 < l := hlast.pos
    have hlow : lo ≤ d := hlast.low
    have hbefore : P (lo + k - 1) := hlast.holds _ (by dsimp only; omega) (by dsimp only; omega)
    rw [runCount_succ, if_neg (fun hbegins => hbegins.2 (by omega) hbefore), ← hcount,
      List.length_append, List.length_singleton, Nat.add_zero]
  holds := hholds
  spare := hspare
  closed hclosed := by
    rw [hstart] at hclosed
    cases hclosed
  opened _ := ⟨us, d, l + 1, rfl, by omega, hstr⟩

/-- A byte of a token is counted, or a slot for it is refused. -/
theorem Scanned.tokenByte_cases (h : Scanned P lo k s ts) (hp : P (lo + k))
    (hcount : runCount P lo (k + 1) < 2 ^ 32) (hk : k < 2 ^ 63) (pool : Pool src) (q : Asked) :
    (∃ q', tokenByte pool (lo + k) s q = Except.ok (none, q') ∧ q.refusals < q'.refusals) ∨
      ∃ s' q' ts', tokenByte pool (lo + k) s q = Except.ok (some s', q') ∧
        q'.refusals = q.refusals ∧ Scanned P lo (k + 1) s' ts' := by
  have hnelts := h.holds.nelts
  have hlen := h.count
  by_cases hstart : s.start = true
  · obtain ⟨us, d, l, rfl, hend, hstr⟩ := h.opened hstart
    have hmono : runCount P lo k ≤ runCount P lo (k + 1) := runCount_mono (Nat.le_succ k)
    have hlow : lo ≤ d := ((h.runs.mem_iff ⟨d, l⟩).mp (by simp)).low
    have hroom := h.spare.lt_room (by omega)
    obtain ⟨arr', hwrite, hholds, hn, ha, hr⟩ := h.holds.lengthen hroom (by omega)
    refine Or.inr ⟨{ s with arr := arr' }, q, _, ?_, rfl,
      Scanned.extend h.runs (by simpa using hlen) hend hp hholds (h.spare.congr hn ha hr) hstart hstr⟩
    rw [tokenByte, if_pos hstart, pure_eq_ok, ok_bind]
    dsimp only
    rw [hstr]
    dsimp only
    rw [hwrite, ok_bind, pure_eq_ok]
  · rw [Bool.not_eq_true] at hstart
    have hprev := h.closed hstart
    have hruns := h.runs.start hp hprev
    have hone : runCount P lo (k + 1) = ts.length + 1 := by
      rw [runCount_succ, if_pos ⟨hp, hprev⟩, hlen]
    rcases arrayPush_cases pool q h.spare (by omega) with
      ⟨q', hnone, hless⟩ | ⟨arr', q', hsome, hrefusals, hn, hroom, helts, hspare⟩
    · refine Or.inl ⟨q', ?_, hless⟩
      rw [tokenByte, if_neg (by simp [hstart]), beginToken, hnone]
      rfl
    · obtain ⟨arr'', hwrite, hholds, hn', ha', hr'⟩ := h.holds.push hn hroom helts ⟨lo + k, 0⟩
      have hspare'' := hspare.congr hn' ha' hr'
      have hroom'' := hspare''.lt_room (by omega)
      obtain ⟨arr₃, hwrite₃, hholds₃, hn₃, ha₃, hr₃⟩ := hholds.lengthen hroom'' (by omega)
      refine Or.inr ⟨⟨arr₃, true, some s.arr.nelts⟩, q', ts ++ [⟨lo + k, 1⟩], ?_, hrefusals, ?_⟩
      · rw [tokenByte, if_neg (by simp [hstart]), beginToken, hsome]
        dsimp only
        rw [hwrite, ok_bind, pure_eq_ok, ok_bind]
        dsimp only
        rw [hnelts, hwrite₃, ok_bind, pure_eq_ok]
      · refine ⟨hruns, ?_, hholds₃, hspare''.congr hn₃ ha₃ hr₃, nofun,
          fun _ => ⟨ts, lo + k, 1, rfl, rfl, congrArg some hnelts⟩⟩
        rw [hone, List.length_append, List.length_singleton]

end

section

variable {src : Source} {mem : ℕ → UInt8} {delims : Delims} {lo n k : ℕ} {s : Scan}
  {ts : List Slice}

/-- The rest of the bytes. -/
theorem Scanned.run (h : Scanned (IsToken mem delims) lo k s ts)
    (hcount : runCount (IsToken mem delims) lo (k + n) < 2 ^ 32) (hk : k + n < 2 ^ 63)
    (pool : Pool src) (q : Asked) :
    (∃ q', strtokFrom pool mem delims n (lo + k) s q = Except.ok (none, q') ∧
        q.refusals < q'.refusals) ∨
      ∃ s' q' ts', strtokFrom pool mem delims n (lo + k) s q = Except.ok (some s', q') ∧
        q'.refusals = q.refusals ∧ Scanned (IsToken mem delims) lo (k + n) s' ts' := by
  induction n generalizing k s ts q with
  | zero => exact Or.inr ⟨s, q, ts, rfl, rfl, h⟩
  | succ n ih =>
    have hnext : k + (n + 1) = k + 1 + n := by omega
    rw [hnext] at hcount hk ⊢
    rw [strtokFrom]
    by_cases hdelim : isDelim (mem (lo + k)) delims.1 = true
    · rw [if_pos hdelim]
      exact ih (h.skip (by simp [IsToken, hdelim])) hcount hk q
    · have hp : IsToken mem delims (lo + k) := by simpa [IsToken] using hdelim
      have hmono := @runCount_mono (IsToken mem delims) lo (k + 1 + n) _ (k + 1) (by omega)
      rw [if_neg hdelim]
      rcases h.tokenByte_cases hp (by omega) (by omega) pool q with
        ⟨q', hnone, hless⟩ | ⟨s', q', ts', hsome, hsame, hscanned⟩
      · exact Or.inl ⟨q', by rw [hnone]; rfl, hless⟩
      · rw [hsome, ok_bind, ← hsame]
        exact ih hscanned hcount hk q'

/-- No block of a question from this number on has the address in it. -/
def Passed (pool : Pool src) (count x : ℕ) : Prop :=
  ∀ i n a, count ≤ i → pool.place i n = some a → x < a ∨ a + n ≤ x

theorem Passed.mono {pool : Pool src} {count count' x : ℕ} (h : Passed pool count x)
    (hle : count ≤ count') : Passed pool count' x :=
  fun i n a hi hplace => h i n a (le_trans hle hi) hplace

end

section

variable {src : Source}

end

end HCore.Tokens
