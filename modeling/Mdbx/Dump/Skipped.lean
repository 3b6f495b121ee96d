import Mdbx.Dump.MainLoop
import Mdbx.Dump.RoundTrip

/-!
# Dump.Skipped — when the record loop gets to the end of the data

A record that is skipped ends the loop, and what follows it is read as a header.
-/

namespace Mdbx.Dump

open Text

section

variable {σ : Type} (api : Api σ) (o : Options)

/-! ## 1. What is promised -/

/-- The loop that goes on behind a skipped record. -/
def allRecords (plain : Bool) (putflags : UInt32) : Nat → Loop σ → Option (Loop σ)
  | 0, _ => none
  | fuel + 1, l => match turn api o plain putflags l with
    | .ended l' => some l'
    | .failed => none
    | .skipped l' => allRecords plain putflags fuel l'
    | .stored l' => allRecords plain putflags fuel l'

/-- All records up to the end of the data are put, and what is read next follows it. -/
def Loop.Attempted (plain : Bool) (putflags : UInt32) (l : Loop σ) : Prop :=
  recordLoop api o plain putflags (l.input.length + 1) l =
    allRecords api o plain putflags (l.input.length + 1) l

def attemptTable (m : Main σ) : Outcome σ :=
  match openTable api o m with
  | none => .failure
  | some lib =>
    let putflags := tablePutflags m.putflags m.header.dbiFlags
    match allRecords api o m.header.plaintext putflags (m.input.length + 1) (m.loop lib) with
    | none => .failure
    | some l => closeTable api m putflags l

/-- The load that goes on behind a skipped record. -/
def attemptTables : Nat → Main σ → Option σ
  | 0, _ => none
  | fuel + 1, m => match attemptTable api o m with
    | .again m' => attemptTables fuel m'
    | .success lib => some lib
    | .failure => none

/-! ## 2. The condition -/

/-- The records of the stream up to the end of the data, or to a line that is none. -/
def pairs (plain : Bool) : Nat → Nat → Nat → Record → Bytes → List Pair
  | 0, _, _, _, _ => []
  | fuel + 1, klen, dlen, last, s => match readRecord plain klen dlen last s with
    | .ended _ _ => []
    | .failed => []
    | .pair e => e :: pairs plain fuel e.klen e.dlen e.record e.rest

def Loop.pairs (plain : Bool) (l : Loop σ) : List Pair :=
  Dump.pairs plain (l.input.length + 1) l.klen l.dlen l.last l.input

/-- All of these are stored, one after another. -/
def stores (putflags : UInt32) (count : Nat) (lib : σ) : List Pair → Option (Nat × σ)
  | [] => some (count, lib)
  | e :: es => match api.cursorPut putflags lib e.record with
    | .success lib => (checkpoint api o (count + 1) lib).bind fun x => stores putflags x.1 x.2 es
    | _ => none

def Skips (putflags : UInt32) (lib : σ) (r : Record) : Prop :=
  match api.cursorPut putflags lib r with
  | .keyExist _ => putflags ≠ 0
  | .badValsize _ => o.rescue = true
  | _ => False

/-- Where the records in front are all stored, the next one is not skipped, unless nothing at all
follows it. -/
def Undisturbed (putflags : UInt32) (count : Nat) (lib : σ) (es : List Pair) : Prop :=
  ∀ before e after, es = before ++ e :: after → ∀ x, stores api o putflags count lib before = some x →
    Skips api o putflags x.2 e.record → e.rest = []

end

/-! ## 3. Lines take up the stream -/

theorem takeLine_length (k : Nat) (s : Bytes) : (takeLine k s).2.length ≤ s.length := by
  induction s generalizing k with
  | nil => exact Nat.le_refl 0
  | cons c s ih =>
    unfold takeLine
    by_cases hk : k = 0
    · rw [if_pos hk]
    · rw [if_neg hk]
      by_cases hc : c = newline
      · rw [if_pos hc]
        exact Nat.le_succ s.length
      · rw [if_neg hc]
        exact (ih (k - 1)).trans (Nat.le_succ s.length)

theorem fgets_length {n : Int} {s line rest : Bytes} (h : fgets n s = some (line, rest)) :
    rest.length ≤ s.length := by
  unfold fgets at h
  split_ifs at h
  have hrest : (takeLine (n.toNat - 1) s).2 = rest := congrArg Prod.snd (Option.some.inj h)
  rw [← hrest]
  exact takeLine_length _ s

theorem readMore_length {fuel len len' : Nat} {text text' s rest : Bytes}
    (h : readMore fuel len text s = some (text', len', rest)) : rest.length ≤ s.length := by
  induction fuel generalizing len text s with
  | zero => cases h
  | succ fuel ih =>
    unfold readMore at h
    split_ifs at h
    · rw [(Prod.mk.inj (Prod.mk.inj (Option.some.inj h)).2).2]
    · obtain ⟨⟨piece, s'⟩, hf, hmore⟩ := Option.bind_eq_some_iff.mp h
      exact (ih hmore).trans (fgets_length hf)

theorem decoded_item {p : Bool} {r : Option (Bytes × Nat × Bytes)} {v : Option Bytes} {len' : Nat}
    {rest : Bytes} (h : decoded p r = .item v len' rest) : ∃ text, r = some (text, len', rest) := by
  cases r with
  | none => exact nomatch h
  | some r =>
    have ⟨text, len, rest₀⟩ := r
    unfold decoded at h
    dsimp only at h
    cases hd : decode p text.dropLast with
    | none =>
      rw [hd] at h
      exact nomatch h
    | some v' =>
      rw [hd] at h
      have ⟨_, hlen, hrest⟩ := Line.item.inj h
      exact ⟨text, by rw [hlen, hrest]⟩

theorem readRest_length {p : Bool} {len len' : Nat} {c : UInt8} {s rest : Bytes} {v : Option Bytes}
    (h : readRest p len c s = .item v len' rest) : rest.length ≤ s.length := by
  unfold readRest at h
  by_cases hc : c = newline
  · rw [if_pos hc] at h
    have ⟨_, hmore⟩ := decoded_item h
    exact readMore_length hmore
  · rw [if_neg hc] at h
    have ⟨_, hmore⟩ := decoded_item h
    have ⟨⟨piece, s'⟩, hf, hmore⟩ := Option.bind_eq_some_iff.mp hmore
    exact (readMore_length hmore).trans (fgets_length hf)

theorem readEnd_item {c : UInt8} {r : Option (Bytes × Bytes)} {v : Option Bytes} {len' : Nat}
    {rest : Bytes} : readEnd c r ≠ .item v len' rest := by
  unfold readEnd
  cases r with
  | none => exact fun h => nomatch h
  | some r =>
    dsimp only
    split_ifs
    · exact fun h => nomatch h
    · exact fun h => nomatch h

theorem readValue_length {p : Bool} {len len' : Nat} {s rest : Bytes} {v : Option Bytes}
    (h : readValue p len s = .item v len' rest) : rest.length ≤ s.length := by
  cases s with
  | nil =>
    simp only [readValue] at h
    cases h
  | cons d s =>
    simp only [readValue] at h
    by_cases hd : d = space
    · rw [if_pos hd] at h
      rw [(Line.item.inj h).2.2]
    · rw [if_neg hd] at h
      exact (readRest_length h).trans (Nat.le_succ s.length)

theorem readline_item {p : Bool} {len len' : Nat} {s rest : Bytes} {v : Option Bytes}
    (h : readline p len s = .item v len' rest) : rest.length < s.length := by
  cases s with
  | nil =>
    simp only [readline] at h
    cases h
  | cons c s =>
    simp only [readline] at h
    by_cases hc : c ≠ space
    · rw [if_pos hc] at h
      exact absurd h readEnd_item
    · rw [if_neg hc] at h
      exact Nat.lt_succ_of_le (readValue_length h)

theorem readMoreStop_length (fuel len : Nat) (text s : Bytes) :
    (readMoreStop fuel len text s).2.length ≤ s.length := by
  induction fuel generalizing len text s with
  | zero => exact Nat.le_refl s.length
  | succ fuel ih =>
    unfold readMoreStop
    by_cases ht : text.getLast? = some newline
    · rw [if_pos ht]
    · rw [if_neg ht]
      cases hf : fgets (int32 (len + 1)) s with
      | none => exact Nat.le_refl s.length
      | some r => exact (ih _ _ _).trans (fgets_length hf)

theorem readlineStop_length (len : Nat) {s : Bytes} (hs : s ≠ []) :
    (readlineStop len s).2.length < s.length := by
  cases s with
  | nil => exact absurd rfl hs
  | cons c s =>
    simp only [readlineStop]
    by_cases hc : c ≠ space
    · rw [if_pos hc]
      cases hf : fgets (int32 len) s with
      | none => exact Nat.lt_succ_self s.length
      | some r => exact Nat.lt_succ_of_le (fgets_length hf)
    · rw [if_neg hc]
      cases s with
      | nil => exact Nat.zero_lt_one
      | cons d s =>
        dsimp only
        cases hf : fgets (int32 (len - 1)) s with
        | none => exact Nat.lt_succ_of_le (Nat.le_succ s.length)
        | some r =>
          have hmore := readMoreStop_length 64 len (cstr (d :: r.1)) r.2
          exact Nat.lt_succ_of_le ((hmore.trans (fgets_length hf)).trans (Nat.le_succ s.length))

theorem readRecord_pair {p : Bool} {klen dlen : Nat} {last : Record} {s : Bytes} {e : Pair}
    (h : readRecord p klen dlen last s = .pair e) : e.rest.length < s.length := by
  unfold readRecord at h
  cases hk : readline p klen s with
  | failed =>
    rw [hk] at h
    exact nomatch h
  | eof =>
    rw [hk] at h
    exact nomatch h
  | item k klen' s' =>
    rw [hk] at h
    dsimp only at h
    cases hd : readline p dlen s' with
    | failed =>
      rw [hd] at h
      exact nomatch h
    | eof =>
      rw [hd] at h
      exact nomatch h
    | item d dlen' rest =>
      rw [hd] at h
      rw [← Next.pair.inj h]
      exact (readline_item hd).trans (readline_item hk)

-- the end of the data takes up some of the stream too, if there is any
theorem readRecord_ended {p : Bool} {klen klen' dlen : Nat} {last : Record} {s rest : Bytes}
    (h : readRecord p klen dlen last s = .ended klen' rest) (hs : s ≠ []) :
    rest.length < s.length := by
  unfold readRecord at h
  cases hk : readline p klen s with
  | failed =>
    rw [hk] at h
    exact nomatch h
  | eof =>
    rw [hk] at h
    rw [← (Next.ended.inj h).2]
    exact readlineStop_length klen hs
  | item k klen' s' =>
    rw [hk] at h
    dsimp only at h
    cases hd : readline p dlen s' with
    | failed =>
      rw [hd] at h
      exact nomatch h
    | eof =>
      rw [hd] at h
      exact nomatch h
    | item d dlen' rest =>
      rw [hd] at h
      exact nomatch h

theorem readRecord_nil (p : Bool) (klen dlen : Nat) (last : Record) :
    readRecord p klen dlen last [] = .ended klen [] := rfl

/-! ## 4. A pass through the loop -/

section

variable {σ : Type} {api : Api σ} {o : Options} {plain : Bool} {putflags : UInt32}

variable (api o putflags) in
-- what a pass does with a record
theorem putRecord_cases (l : Loop σ) (e : Pair) :
    (putRecord api o putflags l e = .failed ∧ ¬Skips api o putflags l.lib e.record ∧
      ∀ es, stores api o putflags l.count l.lib (e :: es) = none) ∨
    (∃ l', putRecord api o putflags l e = .skipped l' ∧ l'.input = e.rest ∧
      Skips api o putflags l.lib e.record ∧
      ∀ es, stores api o putflags l.count l.lib (e :: es) = none) ∨
    (∃ l', putRecord api o putflags l e = .stored l' ∧ l'.input = e.rest ∧ l'.klen = e.klen ∧
      l'.dlen = e.dlen ∧ l'.last = e.record ∧ ¬Skips api o putflags l.lib e.record ∧
      ∀ es, stores api o putflags l.count l.lib (e :: es) =
        stores api o putflags l'.count l'.lib es) := by
  unfold putRecord Skips
  simp only [stores]
  cases hput : api.cursorPut putflags l.lib e.record with
  | failed => exact Or.inl ⟨rfl, id, fun _ => rfl⟩
  | keyExist lib =>
    dsimp only
    by_cases hflags : putflags ≠ 0
    · rw [if_pos hflags]
      exact Or.inr (Or.inl ⟨_, rfl, rfl, hflags, fun _ => rfl⟩)
    · rw [if_neg hflags]
      exact Or.inl ⟨rfl, hflags, fun _ => rfl⟩
  | badValsize lib =>
    dsimp only
    by_cases hrescue : o.rescue = true
    · rw [if_pos hrescue]
      exact Or.inr (Or.inl ⟨_, rfl, rfl, hrescue, fun _ => rfl⟩)
    · rw [if_neg hrescue]
      exact Or.inl ⟨rfl, hrescue, fun _ => rfl⟩
  | success lib =>
    dsimp only
    cases hcheck : checkpoint api o (l.count + 1) lib with
    | none => exact Or.inl ⟨rfl, id, fun _ => rfl⟩
    | some x => exact Or.inr (Or.inr ⟨_, rfl, rfl, rfl, rfl, rfl, id, fun _ => rfl⟩)

variable (api o plain putflags) in
-- a pass ends the loop, fails, or has taken a record
theorem turn_cases (l : Loop σ) :
    (∃ klen rest, readRecord plain l.klen l.dlen l.last l.input = .ended klen rest ∧
      turn api o plain putflags l = .ended { l with klen := klen, input := rest }) ∨
    (readRecord plain l.klen l.dlen l.last l.input = .failed ∧
      turn api o plain putflags l = .failed) ∨
    (∃ e, readRecord plain l.klen l.dlen l.last l.input = .pair e ∧
      turn api o plain putflags l = putRecord api o putflags l e) := by
  unfold turn
  cases readRecord plain l.klen l.dlen l.last l.input with
  | ended klen rest => exact Or.inl ⟨klen, rest, rfl, rfl⟩
  | failed => exact Or.inr (Or.inl ⟨rfl, rfl⟩)
  | pair e => exact Or.inr (Or.inr ⟨e, rfl, rfl⟩)

theorem turn_input {l l' : Loop σ} (h : turn api o plain putflags l = .skipped l' ∨
    turn api o plain putflags l = .stored l') : l'.input.length < l.input.length := by
  rcases turn_cases api o plain putflags l with
    ⟨_, _, _, hturn⟩ | ⟨_, hturn⟩ | ⟨e, hread, hturn⟩
  · rw [hturn] at h
    exact nomatch h
  · rw [hturn] at h
    exact nomatch h
  · rw [hturn] at h
    have hrest := readRecord_pair hread
    rcases putRecord_cases api o putflags l e with
      ⟨hput, _⟩ | ⟨l₁, hput, hinput, _⟩ | ⟨l₁, hput, hinput, _⟩
    · rw [hput] at h
      exact nomatch h
    · rw [hput] at h
      rw [← Turn.skipped.inj (h.resolve_right fun h => nomatch h), hinput]
      exact hrest
    · rw [hput] at h
      rw [← Turn.stored.inj (h.resolve_left fun h => nomatch h), hinput]
      exact hrest

-- the stream bounds the passes
theorem recordLoop_fuel {n m : Nat} {l : Loop σ} (hn : l.input.length < n)
    (hm : l.input.length < m) :
    recordLoop api o plain putflags n l = recordLoop api o plain putflags m l := by
  induction n generalizing m l with
  | zero => exact absurd hn (Nat.not_lt_zero _)
  | succ n ih =>
    cases m with
    | zero => exact absurd hm (Nat.not_lt_zero _)
    | succ m =>
      unfold recordLoop
      cases hturn : turn api o plain putflags l with
      | stored l' =>
        have hlt := turn_input (Or.inr hturn)
        exact ih (by omega) (by omega)
      | _ => rfl

theorem allRecords_fuel {n m : Nat} {l : Loop σ} (hn : l.input.length < n)
    (hm : l.input.length < m) :
    allRecords api o plain putflags n l = allRecords api o plain putflags m l := by
  induction n generalizing m l with
  | zero => exact absurd hn (Nat.not_lt_zero _)
  | succ n ih =>
    cases m with
    | zero => exact absurd hm (Nat.not_lt_zero _)
    | succ m =>
      unfold allRecords
      cases hturn : turn api o plain putflags l with
      | skipped l' =>
        have hlt := turn_input (Or.inl hturn)
        exact ih (by omega) (by omega)
      | stored l' =>
        have hlt := turn_input (Or.inr hturn)
        exact ih (by omega) (by omega)
      | _ => rfl

theorem allRecords_nil {n : Nat} {l : Loop σ} (hnil : l.input = []) :
    allRecords api o plain putflags (n + 1) l = some l := by
  have hturn : turn api o plain putflags l = .ended l := by
    unfold turn
    rw [hnil, readRecord_nil, ← hnil]
  unfold allRecords
  rw [hturn]

-- what follows a skipped record is taken up
theorem allRecords_shorter {n : Nat} {l l' : Loop σ}
    (h : allRecords api o plain putflags n l = some l') (hne : l.input ≠ []) :
    l'.input.length < l.input.length := by
  induction n generalizing l with
  | zero => exact nomatch h
  | succ n ih =>
    have hgo : ∀ l₁ : Loop σ, l₁.input.length < l.input.length →
        allRecords api o plain putflags n l₁ = some l' → l'.input.length < l.input.length := by
      intro l₁ hlt hall
      by_cases hnil : l₁.input = []
      · cases n with
        | zero => exact nomatch hall
        | succ n =>
          rw [allRecords_nil hnil] at hall
          rw [← Option.some.inj hall]
          exact hlt
      · exact (ih hall hnil).trans hlt
    unfold allRecords at h
    cases hturn : turn api o plain putflags l with
    | ended l₁ =>
      rw [hturn] at h
      rcases turn_cases api o plain putflags l with
        ⟨klen, rest, hread, heq⟩ | ⟨_, heq⟩ | ⟨e, hread, heq⟩
      · rw [← Option.some.inj h, Turn.ended.inj (hturn.symm.trans heq)]
        exact readRecord_ended hread hne
      · exact nomatch hturn.symm.trans heq
      · rw [hturn] at heq
        rcases putRecord_cases api o putflags l e with
          ⟨hput, _⟩ | ⟨l₁, hput, _⟩ | ⟨l₁, hput, _⟩
        all_goals exact nomatch heq.trans hput
    | failed =>
      rw [hturn] at h
      exact nomatch h
    | skipped l₁ =>
      rw [hturn] at h
      exact hgo l₁ (turn_input (Or.inl hturn)) h
    | stored l₁ =>
      rw [hturn] at h
      exact hgo l₁ (turn_input (Or.inr hturn)) h

/-! ## 5. When nothing is lost -/

theorem undisturbed_nil (count : Nat) (lib : σ) : Undisturbed api o putflags count lib [] := by
  intro before e after heq
  exact absurd heq.symm (List.append_ne_nil_of_right_ne_nil before (List.cons_ne_nil e after))

-- the first record is not stored
theorem undisturbed_stuck {count : Nat} {lib : σ} {e : Pair} (es : List Pair)
    (hstuck : ∀ es, stores api o putflags count lib (e :: es) = none) :
    Undisturbed api o putflags count lib (e :: es) ↔
      (Skips api o putflags lib e.record → e.rest = []) := by
  constructor
  · intro h
    exact h [] e es rfl (count, lib) rfl
  · intro h before e' after heq x hx
    cases before with
    | nil =>
      rw [← (List.cons.inj heq).1, ← Option.some.inj hx]
      exact h
    | cons e₁ before =>
      rw [← (List.cons.inj heq).1, hstuck] at hx
      exact nomatch hx

-- the first record is stored
theorem undisturbed_stored {count count' : Nat} {lib lib' : σ} {e : Pair} (es : List Pair)
    (hno : ¬Skips api o putflags lib e.record)
    (hgo : ∀ es, stores api o putflags count lib (e :: es) =
      stores api o putflags count' lib' es) :
    Undisturbed api o putflags count lib (e :: es) ↔ Undisturbed api o putflags count' lib' es := by
  constructor
  · intro h before e' after heq x hx
    rw [← hgo] at hx
    exact h (e :: before) e' after (congrArg (e :: ·) heq) x hx
  · intro h before e' after heq x hx
    cases before with
    | nil =>
      rw [← (List.cons.inj heq).1, ← Option.some.inj hx]
      exact fun hs => absurd hs hno
    | cons e₁ before =>
      have ⟨he, hes⟩ := List.cons.inj heq
      rw [← he, hgo] at hx
      exact h before e' after hes x hx

theorem recordLoop_eq_iff {n : Nat} {l : Loop σ} (hn : l.input.length < n) :
    recordLoop api o plain putflags n l = allRecords api o plain putflags n l ↔
      Undisturbed api o putflags l.count l.lib
        (pairs plain n l.klen l.dlen l.last l.input) := by
  induction n generalizing l with
  | zero => exact absurd hn (Nat.not_lt_zero _)
  | succ n ih =>
    unfold recordLoop allRecords pairs
    rcases turn_cases api o plain putflags l with
      ⟨klen, rest, hread, hturn⟩ | ⟨hread, hturn⟩ | ⟨e, hread, hturn⟩
    · rw [hread, hturn]
      exact iff_of_true rfl (undisturbed_nil _ _)
    · rw [hread, hturn]
      exact iff_of_true rfl (undisturbed_nil _ _)
    · have hrest := readRecord_pair hread
      rw [hread, hturn]
      dsimp only
      rcases putRecord_cases api o putflags l e with
        ⟨hput, hno, hstuck⟩ | ⟨l', hput, hinput, hskips, hstuck⟩ |
        ⟨l', hput, hinput, hklen, hdlen, hlast, hno, hgo⟩
      · rw [hput, undisturbed_stuck _ hstuck]
        exact iff_of_true rfl fun hs => absurd hs hno
      · rw [hput, undisturbed_stuck _ hstuck]
        dsimp only
        constructor
        · intro heq _
          rw [← hinput]
          by_contra hne
          exact absurd (allRecords_shorter heq.symm hne) (Nat.lt_irrefl _)
        · intro h
          cases n with
          | zero => omega
          | succ n => exact (allRecords_nil (hinput.trans (h hskips))).symm
      · rw [hput, undisturbed_stored _ hno hgo, ← hklen, ← hdlen, ← hlast, ← hinput]
        rw [← hinput] at hrest
        exact ih (by omega)

/-! ## 6. Runs -/

variable (api o) in
/-- The tables that a load gets to. -/
inductive Reaches (m : Main σ) : Main σ → Prop where
  | first : Reaches m m
  | next {m' m'' : Main σ} (h : Reaches m m') (hs : loadTable api o m' = .again m'') :
      Reaches m m''

variable (api o) in
/-- All records of the table are put, and the next header is read behind them. -/
def Main.Attempted (m : Main σ) : Prop := ∀ lib, openTable api o m = some lib →
  (m.loop lib).Attempted api o m.header.plaintext (tablePutflags m.putflags m.header.dbiFlags)

variable (api o) in
def Main.Undisturbed (m : Main σ) : Prop := ∀ lib, openTable api o m = some lib →
  Dump.Undisturbed api o (tablePutflags m.putflags m.header.dbiFlags) 0 lib
    ((m.loop lib).pairs m.header.plaintext)

theorem Main.attempted_iff (m : Main σ) : m.Attempted api o ↔ m.Undisturbed api o :=
  forall₂_congr fun _ _ => recordLoop_eq_iff (Nat.lt_succ_self _)

theorem Main.Attempted.loadTable {m : Main σ} (h : m.Attempted api o) :
    loadTable api o m = attemptTable api o m := by
  unfold Dump.loadTable attemptTable
  cases hopen : openTable api o m with
  | none => rfl
  | some lib =>
    have hloop := h lib hopen
    unfold Loop.Attempted at hloop
    have hinput : (m.loop lib).input = m.input := rfl
    rw [hinput] at hloop
    cases hrec : recordLoop api o m.header.plaintext (tablePutflags m.putflags m.header.dbiFlags)
        (m.input.length + 1) (m.loop lib) with
    | none => simp only [hrec, ← hloop]
    | some l => simp only [hrec, ← hloop]

theorem Reaches.trans {m m' m'' : Main σ} (h : Reaches api o m m') (h' : Reaches api o m' m'') :
    Reaches api o m m'' := by
  induction h' with
  | first => exact h
  | next _ hs ih => exact ih.next hs

theorem attempted_load (n : Nat) {m : Main σ}
    (h : ∀ m', Reaches api o m m' → m'.Attempted api o) :
    loadTables api o n m = attemptTables api o n m := by
  induction n generalizing m with
  | zero => rfl
  | succ n ih =>
    unfold loadTables attemptTables
    rw [← (h m .first).loadTable]
    cases hload : loadTable api o m with
    | again m' => exact ih fun m'' hm'' => h m'' ((Reaches.first.next hload).trans hm'')
    | success lib => rfl
    | failure => rfl

variable (api o) in
/-- A load attempts all records of all its tables exactly when no record that it gets to with all
the records of the table before it stored is skipped, unless it is the last of the stream; and then
it comes to what the load comes to that goes on behind skipped records. -/
theorem load_attempts_all_iff (m : Main σ) :
    ((∀ m', Reaches api o m m' → m'.Attempted api o) ↔
      ∀ m', Reaches api o m m' → m'.Undisturbed api o) ∧
    ((∀ m', Reaches api o m m' → m'.Undisturbed api o) →
      ∀ n, loadTables api o n m = attemptTables api o n m) := by
  have hiff : (∀ m', Reaches api o m m' → m'.Attempted api o) ↔
      ∀ m', Reaches api o m m' → m'.Undisturbed api o :=
    forall₂_congr fun m' _ => m'.attempted_iff
  exact ⟨hiff, fun h n => attempted_load n (hiff.mpr h)⟩

end

/-! ## 7. A present key -/

/-- A table of the environment, with `MDBX_NOOVERWRITE` and without duplicates. -/
def tableApi : Api (List Record) where
  envOpen _ table := some table
  maxvalsize _ := memcmpEnv.maxvalsize
  txnBegin := some
  canaryPut _ := some
  dbiOpen _ _ _ := some
  dbiSequence _ := some 0
  addSequence _ := some
  drop _ := some []
  cursorOpen := some
  cursorPut putflags table r :=
    if ¬memcmpEnv.accepts 0 r then .badValsize table
    else if putflags &&& nooverwrite ≠ 0 ∧ r.1 ∈ table.map Prod.fst then .keyExist table
    else .success (memcmpEnv.cursorPut 0 r table)
  txnInfo _ := some ⟨0, 2 ^ 30⟩
  txnCheckpoint := some
  cursorBind := some
  commit := some

def noOptions : Options := ⟨false, false, 100000, 0⟩

/-- Of `-N`. -/
def skipPresent : UInt32 := nooverwrite ||| nodupdata

def twoRecords : Bytes :=
  dumpHead bytevalueMode emptyInfo ++ dumpTail emptyInfo 0 0 ++
    dumpval false (ascii "a") ++ dumpval false (ascii "2") ++
    dumpval false (ascii "b") ++ dumpval false (ascii "3") ++ dataEnd

def loadTwo (table : List Record) : Main (List Record) :=
  (loadStart tableApi skipPresent emptyHeader table twoRecords).getD
    ⟨[], emptyHeader, 0, 0, 0, []⟩

def Outcome.isAgain : Outcome (List Record) → Bool
  | .again _ => true
  | .success _ => false
  | .failure => false

-- the key `a` is present: it is skipped, `b` is lost, and the load succeeds
theorem present_key_loses_rest :
    mdbxLoad tableApi noOptions skipPresent emptyHeader [(ascii "a", ascii "1")] twoRecords =
        some [(ascii "a", ascii "1")] ∧
      ¬∀ m', Reaches tableApi noOptions (loadTwo [(ascii "a", ascii "1")]) m' →
        m'.Attempted tableApi noOptions := by
  refine ⟨by decide +kernel, fun h => ?_⟩
  have hopen : openTable tableApi noOptions (loadTwo [(ascii "a", ascii "1")]) =
      some [(ascii "a", ascii "1")] := by decide +kernel
  have hall := h _ .first _ hopen
  unfold Loop.Attempted at hall
  revert hall
  decide +kernel

-- into an empty table all goes
theorem empty_table_takes_all :
    mdbxLoad tableApi noOptions skipPresent emptyHeader [] twoRecords =
        some [(ascii "a", ascii "2"), (ascii "b", ascii "3")] ∧
      (∀ m', Reaches tableApi noOptions (loadTwo []) m' → m'.Undisturbed tableApi noOptions) ∧
      ∀ n, loadTables tableApi noOptions n (loadTwo []) =
        attemptTables tableApi noOptions n (loadTwo []) := by
  have hload : (loadTable tableApi noOptions (loadTwo [])).isAgain = false := by decide +kernel
  have hall : ∀ m', Reaches tableApi noOptions (loadTwo []) m' →
      m'.Attempted tableApi noOptions := by
    intro m' hreach
    have hfirst : m' = loadTwo [] := by
      induction hreach with
      | first => rfl
      | next _ hs ih =>
        rw [ih] at hs
        rw [hs] at hload
        exact nomatch hload
    rw [hfirst]
    intro lib hopen
    have hlib : openTable tableApi noOptions (loadTwo []) = some [] := by decide +kernel
    rw [← Option.some.inj (hlib.symm.trans hopen)]
    unfold Loop.Attempted
    decide +kernel
  have h := load_attempts_all_iff tableApi noOptions (loadTwo [])
  exact ⟨by decide +kernel, h.1.mp hall, h.2 (h.1.mp hall)⟩

end Mdbx.Dump
