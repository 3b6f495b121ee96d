import Mdbx.Copy.Model
import Mathlib.Data.List.TakeDrop

/-!
# Copy.Puts — what a sequence of calls of `compacting_put_bytes` adds up to

A call may be cut into chunks at any place behind the page header, and the pages that
`compacting_put_page` puts lie one behind the other.
-/

namespace Mdbx.Copy

/-! ## 1. Fields in a buffer -/

@[simp] theorem length_field (width v : Nat) : (field width v).length = width := by
  simp [field]

theorem length_poke {l bytes : List UInt8} {i : Nat} (h : i + bytes.length ≤ l.length) :
    (poke l i bytes).length = l.length := by
  simp only [poke, List.length_append, List.length_take, List.length_drop]
  omega

theorem head_length {l bytes : List UInt8} {i : Nat} (h : i ≤ l.length) :
    (l.take i ++ bytes).length = i + bytes.length := by
  rw [List.length_append, List.length_take, Nat.min_eq_left h]

theorem poke_take {l bytes : List UInt8} {i n : Nat} (hn : i + bytes.length ≤ n)
    (hl : i + bytes.length ≤ l.length) : poke (l.take n) i bytes = (poke l i bytes).take n := by
  have hlen : (l.take i ++ bytes).length = i + bytes.length := head_length (by omega)
  unfold poke
  rw [List.take_take, Nat.min_eq_left (by omega), List.drop_take, List.take_append,
    List.take_of_length_le (by omega : (l.take i ++ bytes).length ≤ n), hlen]

theorem poke_drop {l bytes : List UInt8} {i n : Nat} (hn : i + bytes.length ≤ n)
    (hl : i + bytes.length ≤ l.length) : (poke l i bytes).drop n = l.drop n := by
  have hlen : (l.take i ++ bytes).length = i + bytes.length := head_length (by omega)
  unfold poke
  rw [List.drop_append, List.drop_of_length_le (by omega : (l.take i ++ bytes).length ≤ n), hlen,
    List.nil_append, List.drop_drop, Nat.add_sub_cancel' hn]

theorem peek_take (l : List UInt8) {i width n : Nat} (h : i + width ≤ n) :
    peek (l.take n) i width = peek l i width := by
  unfold peek
  rw [List.drop_take, List.take_take, Nat.min_eq_left (by omega)]

-- bytes that follow what was poked before
theorem poke_poke {l a b : List UInt8} {i : Nat} (h : i ≤ l.length) :
    poke (poke l i a) (i + a.length) b = poke l i (a ++ b) := by
  have hlen : (l.take i ++ a).length = i + a.length := head_length h
  have hdrop : (l.take i ++ a ++ l.drop (i + a.length)).drop (i + a.length + b.length) =
      l.drop (i + a.length + b.length) := by
    rw [List.drop_append, hlen, List.drop_of_length_le (by omega), List.nil_append, List.drop_drop]
    congr 1
    omega
  unfold poke
  rw [hdrop, List.take_append_of_le_length (Nat.le_of_eq hlen.symm),
    List.take_of_length_le (Nat.le_of_eq hlen), List.length_append, List.append_assoc,
    List.append_assoc, List.append_assoc, List.append_assoc, Nat.add_assoc]

/-! ## 2. The stamp does not look beyond the header -/

variable {txnid pgno npages n : Nat} {l : List UInt8}

-- a conditional poke within the first `n` bytes
theorem poke_if_take {l b : List UInt8} {i j w n : Nat} {v : List UInt8} (hn : i + b.length ≤ n)
    (hw : j + w ≤ n) (hl : i + b.length ≤ l.length) :
    (if peek (l.take n) j w = v then poke (l.take n) i b else l.take n) =
      (if peek l j w = v then poke l i b else l).take n := by
  rw [peek_take l hw, poke_take hn hl]
  split_ifs <;> rfl

theorem poke_if_drop {l b v : List UInt8} {i j w n : Nat} (hn : i + b.length ≤ n)
    (hl : i + b.length ≤ l.length) :
    (if peek l j w = v then poke l i b else l).drop n = l.drop n := by
  split_ifs
  · exact poke_drop hn hl
  · rfl

theorem poke_if_length {l b v : List UInt8} {i j w : Nat} (hl : i + b.length ≤ l.length) :
    (if peek l j w = v then poke l i b else l).length = l.length := by
  split_ifs
  · exact length_poke hl
  · rfl

theorem length_stamp (txnid pgno npages : Nat) (hl : pageHdrSz ≤ l.length) :
    (stamp txnid pgno npages l).length = l.length := by
  unfold pageHdrSz at hl
  have h4 := length_field 4 pgno
  have h8 := length_field 8 txnid
  have h4' := length_field 4 npages
  have hnumbered : (poke l 16 (field 4 pgno)).length = l.length := length_poke (by omega)
  have hdated := poke_if_length (l := poke l 16 (field 4 pgno)) (b := field 8 txnid)
    (v := field 8 0) (i := 0) (j := 0) (w := 8) (by omega)
  unfold stamp
  simp only
  rw [poke_if_length (by omega), hdated, hnumbered]

theorem stamp_take (hn : pageHdrSz ≤ n) (hl : pageHdrSz ≤ l.length) :
    stamp txnid pgno npages (l.take n) = (stamp txnid pgno npages l).take n := by
  unfold pageHdrSz at hn hl
  have h4 := length_field 4 pgno
  have h8 := length_field 8 txnid
  have h4' := length_field 4 npages
  have hnumbered : (poke l 16 (field 4 pgno)).length = l.length := length_poke (by omega)
  have hdated := poke_if_length (l := poke l 16 (field 4 pgno)) (b := field 8 txnid)
    (v := field 8 0) (i := 0) (j := 0) (w := 8) (by omega)
  unfold stamp
  simp only
  rw [poke_take (by omega) (by omega), poke_if_take (by omega) (by omega) (by omega),
    poke_if_take (by omega) (by omega) (by omega)]

theorem stamp_drop (hn : pageHdrSz ≤ n) (hl : pageHdrSz ≤ l.length) :
    (stamp txnid pgno npages l).drop n = l.drop n := by
  unfold pageHdrSz at hn hl
  have h4 := length_field 4 pgno
  have h8 := length_field 8 txnid
  have h4' := length_field 4 npages
  have hnumbered : (poke l 16 (field 4 pgno)).length = l.length := length_poke (by omega)
  have hdated := poke_if_length (l := poke l 16 (field 4 pgno)) (b := field 8 txnid)
    (v := field 8 0) (i := 0) (j := 0) (w := 8) (by omega)
  unfold stamp
  simp only
  rw [poke_if_drop (by omega) (by omega), poke_if_drop (by omega) (by omega),
    poke_drop (by omega) (by omega)]

/-! ## 3. Chunks of one call -/

variable {p : Put}

theorem Put.length_chunk (hp : p.Ok) (hle : n ≤ p.bytes) (hhead : p.pgno ≠ 0 → pageHdrSz ≤ n) :
    (p.chunk txnid n).length = n := by
  unfold Put.chunk
  cases hsrc : p.src with
  | none => exact List.length_replicate
  | some l =>
    have hl := hp.source l hsrc
    have hlen : (l.take n).length = n := List.length_take_of_le (by omega)
    simp only
    split_ifs with hpgno
    · rw [length_stamp _ _ _ (by rw [hlen]; exact hhead hpgno), hlen]
    · exact hlen

theorem Put.length_image (hp : p.Ok) : (p.image txnid).length = p.bytes :=
  Put.length_chunk hp (Nat.le_refl _) fun h => Nat.le_of_lt (hp.header h).2

theorem Put.advance_bytes (p : Put) (n : Nat) : (p.advance n).bytes = p.bytes - n := by
  unfold Put.advance
  cases p.src <;> rfl

theorem Put.Ok.advance (hp : p.Ok) (n : Nat) : (p.advance n).Ok := by
  unfold Put.advance
  cases hsrc : p.src with
  | none =>
    refine ⟨fun l hl => ?_, fun h => ?_⟩
    · cases hl
    · have hsome := (hp.header h).1
      rw [hsrc] at hsome
      cases hsome
  | some l =>
    have hl := hp.source l hsrc
    refine ⟨fun l' hl' => ?_, fun h => absurd rfl h⟩
    cases hl'
    rw [List.length_drop]
    change p.bytes - n ≤ _
    omega

/-- A chunk and the rest of the call are the whole call. -/
theorem Put.image_advance (hp : p.Ok) (hle : n ≤ p.bytes) (hhead : p.pgno ≠ 0 → pageHdrSz ≤ n) :
    p.image txnid = p.chunk txnid n ++ (p.advance n).image txnid := by
  unfold Put.image Put.advance Put.chunk
  cases hsrc : p.src with
  | none =>
    simp only
    rw [List.replicate_append_replicate, Nat.add_sub_cancel' hle]
  | some l =>
    have hl := hp.source l hsrc
    have hcut : l.take p.bytes = l.take n ++ (l.drop n).take (p.bytes - n) := by
      rw [← List.take_add, Nat.add_sub_cancel' hle]
    simp only [ne_eq, not_true_eq_false, if_false]
    split_ifs with hpgno
    · exact hcut
    · have hn := hhead hpgno
      have hlen : pageHdrSz ≤ (l.take p.bytes).length := by
        rw [List.length_take_of_le hl]
        omega
      rw [← List.take_append_drop n (stamp txnid p.pgno p.npages (l.take p.bytes)),
        ← stamp_take hn hlen, stamp_drop hn hlen, List.take_take, Nat.min_eq_left hle,
        List.drop_take]

theorem Put.image_nil (hp : p.Ok) (h : p.bytes = 0) : p.image txnid = [] :=
  List.length_eq_zero_iff.mp ((Put.length_image hp).trans h)

/-! ## 4. Pages -/

/-- A call of `compacting_put_page`. -/
structure PagePut where
  mp : List UInt8
  headBytes : Nat
  tailBytes : Nat
  npages : Nat

/-- The asserts of `compacting_put_page`; the page is read up to `head_bytes` and from its tail
on. -/
structure PagePut.Ok (ps : Nat) (q : PagePut) : Prop where
  head : pageHdrSz < q.headBytes ∧ q.headBytes ≤ q.mp.length
  fits : q.headBytes + q.tailBytes ≤ q.npages * ps
  tail : q.tailBytes ≤ ps ∧ (q.tailBytes ≠ 0 → ps ≤ q.mp.length)

/-- The calls that put these pages one after the other. -/
def putPages (ps : Nat) : List PagePut → Nat → List Put
  | [], _ => []
  | q :: qs, first =>
    (compactingPutPage ps q.mp q.headBytes q.tailBytes q.npages first).1 ++
      putPages ps qs (compactingPutPage ps q.mp q.headBytes q.tailBytes q.npages first).2

/-- The page as it stands in the copy. -/
def PagePut.image (ps txnid first : Nat) (q : PagePut) : List UInt8 :=
  stamp txnid first q.npages (q.mp.take q.headBytes) ++
    List.replicate (q.npages * ps - (q.headBytes + q.tailBytes)) 0 ++
    (q.mp.drop (ps - q.tailBytes)).take q.tailBytes

theorem PagePut.Ok.puts {ps first : Nat} {q : PagePut} (h : q.Ok ps) :
    ∀ p ∈ (compactingPutPage ps q.mp q.headBytes q.tailBytes q.npages first).1, p.Ok := by
  obtain ⟨hhead, hlen⟩ := h.head
  obtain ⟨hle, htail⟩ := h.tail
  intro p hp
  rcases List.mem_cons.mp hp with rfl | hp
  · exact ⟨fun l hl => by cases hl; exact hlen, fun _ => ⟨rfl, hhead⟩⟩
  · rcases List.mem_cons.mp hp with rfl | hp
    · exact ⟨fun l hl => absurd hl (Option.some_ne_none l).symm, fun hne => absurd rfl hne⟩
    · rw [List.mem_singleton.mp hp]
      refine ⟨fun l hl => ?_, fun hne => absurd rfl hne⟩
      cases hl
      rw [List.length_drop]
      change q.tailBytes ≤ _
      by_cases h0 : q.tailBytes = 0
      · omega
      · have hps := htail h0
        omega

theorem images_putPage {ps first : Nat} (txnid : Nat) (hfirst : first ≠ 0) (q : PagePut) :
    images txnid (compactingPutPage ps q.mp q.headBytes q.tailBytes q.npages first).1 =
      q.image ps txnid first := by
  unfold images compactingPutPage PagePut.image
  simp only [List.flatMap_cons, List.flatMap_nil, List.append_nil, Put.image, Put.chunk, ne_eq,
    hfirst, not_false_eq_true, if_true, not_true_eq_false, if_false, List.append_assoc]

theorem PagePut.length_image {ps first : Nat} (txnid : Nat) {q : PagePut} (h : q.Ok ps) :
    (q.image ps txnid first).length = q.npages * ps := by
  obtain ⟨hhead, hlen⟩ := h.head
  obtain ⟨hle, htail⟩ := h.tail
  have hfits := h.fits
  have hcut : (q.mp.take q.headBytes).length = q.headBytes := List.length_take_of_le hlen
  have htailLen : ((q.mp.drop (ps - q.tailBytes)).take q.tailBytes).length = q.tailBytes := by
    rw [List.length_take, List.length_drop]
    by_cases h0 : q.tailBytes = 0
    · omega
    · have hps := htail h0
      omega
  unfold PagePut.image
  rw [List.length_append, List.length_append, length_stamp _ _ _ (by omega), hcut, htailLen,
    List.length_replicate]
  omega

/-- `first_unallocated` behind the pages. -/
def pagesEnd (first : Nat) (qs : List PagePut) : Nat := first + (qs.map PagePut.npages).sum

theorem images_append (txnid : Nat) (a b : List Put) :
    images txnid (a ++ b) = images txnid a ++ images txnid b := List.flatMap_append

/-- Page after page: the images lie at the numbers that the walk gives to the pages. -/
theorem images_putPages {ps : Nat} (txnid : Nat) (qs : List PagePut) {first : Nat}
    (hfirst : first ≠ 0) (hqs : ∀ q ∈ qs, q.Ok ps) :
    (images txnid (putPages ps qs first)).length + first * ps = pagesEnd first qs * ps ∧
      ∀ pre q post, qs = pre ++ q :: post →
        ((images txnid (putPages ps qs first)).drop ((pagesEnd first pre - first) * ps)).take
          (q.npages * ps) = q.image ps txnid (pagesEnd first pre) := by
  induction qs generalizing first with
  | nil =>
    refine ⟨by simp [putPages, images, pagesEnd], fun pre q post h => ?_⟩
    exact absurd h.symm (by simp)
  | cons q₀ qs ih =>
    have hq₀ := hqs q₀ List.mem_cons_self
    obtain ⟨hlen, hat⟩ := @ih (first + q₀.npages) (by omega)
      fun q hq => hqs q (List.mem_cons_of_mem _ hq)
    have hend : pagesEnd first (q₀ :: qs) = pagesEnd (first + q₀.npages) qs := by
      simp only [pagesEnd, List.map_cons, List.sum_cons]
      omega
    have hcat : images txnid (putPages ps (q₀ :: qs) first) =
        q₀.image ps txnid first ++ images txnid (putPages ps qs (first + q₀.npages)) := by
      rw [putPages, images_append, images_putPage txnid hfirst]
      rfl
    have hhead : (q₀.image ps txnid first).length = q₀.npages * ps :=
      PagePut.length_image txnid hq₀
    rw [hcat, hend]
    refine ⟨?_, fun pre q post h => ?_⟩
    · rw [List.length_append, hhead, ← hlen, Nat.add_mul]
      omega
    · cases pre with
      | nil =>
        cases h
        have hz : (pagesEnd first [] - first) * ps = 0 := by simp [pagesEnd]
        rw [hz, List.drop_zero, ← hhead, List.take_left]
        rfl
      | cons q₁ pre =>
        cases h
        have hshift : pagesEnd first (q₀ :: pre) = pagesEnd (first + q₀.npages) pre := by
          simp only [pagesEnd, List.map_cons, List.sum_cons]
          omega
        have hge : first + q₀.npages ≤ pagesEnd (first + q₀.npages) pre := Nat.le_add_right _ _
        have hskip : (pagesEnd first (q₀ :: pre) - first) * ps =
            (q₀.image ps txnid first).length +
              (pagesEnd (first + q₀.npages) pre - (first + q₀.npages)) * ps := by
          rw [hshift, hhead, ← Nat.add_mul]
          congr 1
          omega
        rw [hskip, ← List.drop_drop, List.drop_left, hshift]
        exact hat pre q post rfl

end Mdbx.Copy
