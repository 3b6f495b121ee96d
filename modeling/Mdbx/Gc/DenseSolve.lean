import Mdbx.Lib.Counted
import Mdbx.Gc.FillReturned
import Mdbx.Pnl
import Mdbx.Rkl.Hole

/-!
# Gc.DenseSolve — `gc_dense_solve`

The returned pages are to be stored in a given number of slots, with chunks that fill runs of
neighbouring pages.  A recursive search over the lengths of the chunks works on a histogram of the
runs.  An access past an array gives `none`, and so would a loop that does not end; the calls of
`consume_remaining` are logged.
-/

namespace Mdbx.Gc.Dense

open Buffer

/-! ## 1. Histograms -/

/-- `ARRAY_LENGTH(gc_dense_histogram_t.array)` -/
def histLength : Nat := 31

/-- `gc_dense_histogram_t` -/
structure Hist where
  ends : Nat
  array : Nat → Nat

/-- The indices are of `size_t`, so that one less than zero is past the end. -/
def readAt (a : Nat → Nat) (i : Nat) : Option Nat := if i < histLength then some (a i) else none

def writeAt (a : Nat → Nat) (i v : Nat) : Option (Nat → Nat) :=
  if i < histLength then some (set a i v) else none

/-- The loop of `gc_dense_hist`, for the `n` indices from `i` on: the array, `seqlen` and
`seqmax`. -/
def histLoop (repnl : Pnl) : Nat → Nat → (Nat → Nat) → Nat → Nat → Option ((Nat → Nat) × Nat × Nat)
  | 0, _, a, seqlen, seqmax => some (a, seqlen, seqmax)
  | n + 1, i, a, seqlen, seqmax =>
      let seqlen := seqlen + 1
      if seqlen = histLength ∨ repnl.cells (i - 1) ≠ repnl.cells i + 1 then
        (writeAt a (seqlen - 1) (a (seqlen - 1) + 1)).bind fun a' =>
          histLoop repnl n (i + 1) a' 0 (if seqmax ≥ seqlen then seqmax else seqlen)
      else histLoop repnl n (i + 1) a seqlen seqmax

/-- `gc_dense_hist` -/
def gcDenseHist (repnl : Pnl) : Option Hist :=
  (histLoop repnl (repnl.size - 1) 2 (fun _ => 0) 0 1).bind fun out =>
    (writeAt out.1 out.2.1 (out.1 out.2.1 + 1)).map fun a =>
      ⟨if out.2.2 > out.2.1 then out.2.2 else out.2.1 + 1, a⟩

/-! ## 2. The search -/

/-- `sr_state_t` -/
structure St where
  leftSlots : Nat
  leftVolume : Nat
  hist : Hist

/-- `sr_context_t` -/
structure Ctx where
  firstPage : Nat
  otherPages : Nat
  factor : Nat

/-- A call of `consume_remaining`. -/
structure Call where
  st : St
  len : Nat

structure Out where
  calls : List Call
  -- `none` after an access past an array
  result : Option (Bool × St × (Nat → Nat))

def Out.after (calls : List Call) (out : Out) : Out := ⟨calls ++ out.calls, out.result⟩

/-- A cast of `pgno_t` to `int`. -/
def toInt (v : Nat) : Int :=
  if v % 2 ^ 32 < 2 ^ 31 then (v % 2 ^ 32 : Nat) else (v % 2 ^ 32 : Nat) - 2 ^ 32

/-- `left_volume -= per_chunk` -/
def volumeSub (volume perChunk : Nat) : Nat := (volume + 2 ^ 32 - perChunk % 2 ^ 32) % 2 ^ 32

def perChunk (ct : Ctx) (len : Nat) : Nat := ct.firstPage + ct.otherPages * (len - 1)

/-- A chunk of `len` is cut from one of the longest runs. -/
def cutOff (h : Hist) (len : Nat) : Option Hist :=
  let rest :=
    if h.ends > len then
      (readAt h.array (h.ends - len - 1)).bind fun v => writeAt h.array (h.ends - len - 1) (v + 1)
    else some h.array
  rest.bind fun a => (readAt a (h.ends - 1)).bind fun v =>
    (writeAt a (h.ends - 1) (v - 1)).map fun a' => ⟨h.ends, a'⟩

/-- `consume_stack`; it goes round no more than `hist.end + n` times. -/
def consumeStack (len : Nat) : Nat → Hist → Nat → Option (Bool × Hist)
  | 0, _, _ => none
  | fuel + 1, h, n =>
      if h.ends ≥ len then
        (readAt h.array (h.ends - 1)).bind fun v =>
          if v < 1 then consumeStack len fuel { h with ends := h.ends - 1 } n
          else
            (cutOff h len).bind fun h' =>
              if n - 1 = 0 then some (true, h') else consumeStack len fuel h' (n - 1)
      else some (false, h)

/-- `while (len > ct->factor) solution[--len] = 0`, down to `factor`. -/
def clearAbove (factor : Nat) : Nat → (Nat → Nat) → Option ((Nat → Nat) × Nat)
  | 0, a => some (a, 0)
  | len + 1, a =>
      if len + 1 > factor then (writeAt a len 0).bind fun a' => clearAbove factor len a'
      else some (a, len + 1)

/-- `while (--len) solution[len - 1] = 0`, from `len` on. -/
def clearBelow : Nat → (Nat → Nat) → Option (Nat → Nat)
  | 0, _ => none
  | 1, a => some a
  | len + 2, a => (writeAt a len 0).bind fun a' => clearBelow (len + 1) a'

/-- The loop of `consume_remaining`; it goes round no more than `hist.end + left_slots` times. -/
def remainingLoop (ct : Ctx) :
    Nat → St → Nat → Nat → (Nat → Nat) → Option (Bool × St × (Nat → Nat))
  | 0, _, _, _, _ => none
  | fuel + 1, st, len, chunk, a =>
      if st.hist.ends > 0 ∧ st.leftSlots > 0 then
        (readAt st.hist.array (st.hist.ends - 1)).bind fun v =>
          if v ≠ 0 then
            (readAt a (len - 1)).bind fun count => (writeAt a (len - 1) (count + 1)).bind fun a' =>
              (cutOff st.hist len).bind fun h =>
                let st' : St := ⟨st.leftSlots - 1, volumeSub st.leftVolume chunk, h⟩
                if 0 ≥ toInt st'.leftVolume then (clearBelow len a').map fun a'' => (true, st', a'')
                else remainingLoop ct fuel st' len chunk a'
          else
            let st' := { st with hist := { st.hist with ends := st.hist.ends - 1 } }
            if len > st'.hist.ends then
              (writeAt a (sizePred st'.hist.ends) 0).bind fun a' =>
                remainingLoop ct fuel st' st'.hist.ends (chunk - ct.otherPages) a'
            else remainingLoop ct fuel st' len chunk a
      else some (false, st, a)

/-- `consume_remaining` -/
def consumeRemaining (ct : Ctx) (st : St) (len : Nat) (a : Nat → Nat) :
    Option (Bool × St × (Nat → Nat)) :=
  (clearAbove ct.factor len a).bind fun out =>
    (writeAt out.1 (sizePred out.2) 0).bind fun a' =>
      if 0 ≥ toInt st.leftVolume then (clearBelow out.2 a').map fun a'' => (true, st, a'')
      else
        remainingLoop ct (st.hist.ends + st.leftSlots + 1) st out.2 (perChunk ct out.2) a'

/-- What the loop of `solve_recursive` makes of a deeper search, and how it goes on. -/
def attempt (st : St) (len lo hi n : Nat) (again : Nat → Nat → Nat → (Nat → Nat) → Out)
    (out : Out) : Out :=
  match out.result with
  | none => out
  | some (ok, left, a) =>
      if ok ∧ ¬ (n > lo ∧ n < hi) then
        ⟨out.calls, (writeAt a (len - 1) n).map fun a' => (true, left, a')⟩
      else
        let lo' := if ok then lo else n + 1
        let hi' := if ok then n else hi
        if hi' ≥ lo' then .after out.calls (again lo' hi' ((hi' + lo' + 1) % 2 ^ 32 / 2) a)
        else ⟨out.calls, some (false, st, a)⟩

/-- `local` after `n` chunks of `len` are taken. -/
def taken (ct : Ctx) (st : St) (len n : Nat) (h : Hist) : St :=
  ⟨st.leftSlots - n,
    if st.leftVolume > n * perChunk ct len then st.leftVolume - n * perChunk ct len else 0, h⟩

/-- The loop of `solve_recursive`; it goes round no more than `left_slots` times. -/
def solveLoop (ct : Ctx) (deeper : St → (Nat → Nat) → Out) (st : St) (len : Nat) :
    Nat → Nat → Nat → Nat → (Nat → Nat) → Out
  | 0, _, _, _, _ => ⟨[], none⟩
  | fuel + 1, lo, hi, n, a =>
      if n ≠ 0 then
        match consumeStack len (st.hist.ends + n + 1) st.hist n with
        | none => ⟨[], none⟩
        | some (false, _) =>
            if n - 1 ≥ lo then
              solveLoop ct deeper st len fuel lo (n - 1) ((n - 1 + lo) % 2 ^ 32 / 2) a
            else ⟨[], some (false, st, a)⟩
        | some (true, h) =>
            attempt st len lo hi n (fun lo hi n a => solveLoop ct deeper st len fuel lo hi n a)
              (deeper (taken ct st len n h) a)
      else
        attempt st len lo hi n (fun lo hi n a => solveLoop ct deeper st len fuel lo hi n a)
          (deeper st a)

/-- `solve_recursive` -/
def solveRecursive (ct : Ctx) : Nat → St → (Nat → Nat) → Out
  | 0, st, a => ⟨[⟨st, 0⟩], consumeRemaining ct st 0 a⟩
  | len + 1, st, a =>
      if len + 1 > ct.factor ∧ st.leftSlots > 1 ∧ st.leftVolume > perChunk ct (len + 1) then
        solveLoop ct (solveRecursive ct len) st (len + 1) (st.leftSlots + 1) 0 (st.leftSlots - 1) 0 a
      else ⟨[⟨st, len + 1⟩], consumeRemaining ct st (len + 1) a⟩

/-! ## 3. The solution -/

/-- A page size between `MDBX_MIN_PAGESIZE` and `MDBX_MAX_PAGESIZE`. -/
structure Env where
  ps : Nat
  min_le : 256 ≤ ps
  le_max : ps ≤ 65536

/-- As `env_setup_pagesize` sets it. -/
def Env.maxgcLarge1page (e : Env) : Nat := (e.ps - 20) / 4 - 1

/-- `gc_chunk_pages` -/
def gcChunkPages (e : Env) (chunk : Nat) : Nat := (20 - 1 + Fill.gcChunkBytes chunk) / e.ps + 1

inductive Answer where
  -- "recursive-solving preconditions violated"
  | preconditions
  -- "recursive-solving failure"
  | failure
  | found (solution : Hist)
  | notFound

/-- `while (end > solution->array && end[-1] == 0) --end` -/
def trimEnd (a : Nat → Nat) : Nat → Nat
  | 0 => 0
  | n + 1 => if a n = 0 then trimEnd a n else n + 1

/-- The check of a solution: `items` and `volume` over the first `n` cells. -/
def checkItems (a : Nat → Nat) : Nat → Nat
  | 0 => 0
  | n + 1 => checkItems a n + a n

def checkVolume (ct : Ctx) (a : Nat → Nat) : Nat → Nat
  | 0 => 0
  | n + 1 => checkVolume ct a n + a n * perChunk ct (n + 1)

def context (e : Env) (slots volume : Nat) : Ctx :=
  ⟨e.maxgcLarge1page + 1, e.ps / 4 + 1,
    gcChunkPages e ((volume + slots + (2 ^ 32 - 1)) % 2 ^ 32 / slots)⟩

def begun (hist : Hist) (slots returnLeft : Nat) : St :=
  ⟨toUnsigned slots, toUnsigned returnLeft, hist⟩

/-- The calls of `consume_remaining` that `gc_dense_solve` makes. -/
def searchOut (e : Env) (hist : Hist) (slots returnLeft : Nat) : Out :=
  let st := begun hist slots returnLeft
  solveRecursive (context e st.leftSlots st.leftVolume) st.hist.ends st fun _ => 0

/-- `gc_dense_solve`, with the histogram, `rkl_len(&ready4reuse)` and `return_left` -/
def gcDenseSolve (e : Env) (hist : Hist) (slots returnLeft : Nat) : Option Answer :=
  let st := begun hist slots returnLeft
  if st.leftSlots = 0 ∨ st.leftVolume = 0 then some .preconditions
  else
    let ct := context e st.leftSlots st.leftVolume
    (searchOut e hist slots returnLeft).result.map fun out =>
      if out.1 then
        let solution : Hist := ⟨trimEnd out.2.2 histLength, out.2.2⟩
        if checkVolume ct out.2.2 solution.ends < returnLeft ∨
            checkItems out.2.2 solution.ends > slots then .failure
        else .found solution
      else .notFound

/-- `dense_adjust_amount`, with the height of the GC. -/
def denseAdjustAmount (e : Env) (height amount : Nat) : Nat :=
  if amount + (2 + height) < e.maxgcLarge1page then e.maxgcLarge1page else amount + e.ps / 4 / 2

end Mdbx.Gc.Dense
