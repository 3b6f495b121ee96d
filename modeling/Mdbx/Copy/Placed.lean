import Mdbx.Copy.Safe
import Mdbx.Compact.Account

/-!
# Copy.Placed — the walk and the writer together

The pages that the walk puts go through the two buffers to the destination.  There each of them lies
where its number says, which is the number that its parent or the meta page has for it.
-/

namespace Mdbx.Copy

open Mdbx.Compact (Emit Numbered)

/-- What `compacting_put_page` is called with for the pages of a walk. -/
structure Encoding (pageSize : Nat) where
  put : Emit → PagePut
  ok : ∀ e, 0 < e.npages → (put e).Ok pageSize
  npages : ∀ e, (put e).npages = e.npages

variable {pageSize : Nat} {c : Conf} {f₀ : List UInt8} {es : List Event} {s : State}

theorem numbered_place (enc : Encoding pageSize) {first last : Nat} {pre post : List Emit} {e : Emit}
    (h : Numbered first (pre ++ e :: post) last) :
    pagesEnd first (pre.map enc.put) = e.pgno := by
  induction pre generalizing first with
  | nil => exact h.1.symm
  | cons e' pre ih =>
    have hrest := ih h.2.2
    unfold pagesEnd at hrest ⊢
    rw [List.map_cons, List.map_cons, List.sum_cons, enc.npages]
    omega

/-- In a destination that was written with success every page of the walk lies at its number. -/
theorem copied_placed (enc : Encoding pageSize) {ctx : Compact.Ctx} (hctx : ctx.Ok)
    (h : Run c (putPages pageSize (ctx.out.map enc.put) numMetas) (numMetas * pageSize) f₀ es s)
    (hpipe : c.writeWithOffset = false → f₀.length = numMetas * pageSize)
    (hrc : s.walker = .returned 0) {e : Emit} (he : e ∈ ctx.out) :
    (s.file.drop (e.pgno * pageSize)).take (e.npages * pageSize) =
      (enc.put e).image pageSize c.txnid e.pgno := by
  have hqs : ∀ q ∈ ctx.out.map enc.put, q.Ok pageSize := by
    intro q hq
    obtain ⟨e', he', rfl⟩ := List.mem_map.mp hq
    exact enc.ok e' (Compact.Numbered.npages_pos hctx e' he')
  obtain ⟨pre, post, hsplit⟩ := List.append_of_mem he
  have hplace : pagesEnd numMetas (pre.map enc.put) = e.pgno := by
    have hnum : Numbered numMetas (pre ++ e :: post) ctx.firstUnallocated := by
      rw [← hsplit]
      exact hctx
    exact numbered_place enc hnum
  have hat := (copied_pages h hqs hpipe hrc).2 (pre.map enc.put) (enc.put e) (post.map enc.put)
    (by rw [hsplit, List.map_append, List.map_cons])
  rw [hplace, enc.npages] at hat
  exact hat

theorem plain_ok (npages : Nat) (hpos : 0 < npages) :
    (⟨List.replicate 32 1, 32, 0, npages⟩ : PagePut).Ok 32 :=
  ⟨⟨(by decide : 20 < 32), (by decide : 32 ≤ (List.replicate 32 (1 : UInt8)).length)⟩,
    Nat.le_mul_of_pos_left 32 hpos, ⟨Nat.zero_le 32, fun h => absurd rfl h⟩⟩

/-- A page of the walk that is put as 32 bytes, with as many zeros as it has further pages. -/
def plainEncoding : Encoding 32 where
  put e := ⟨List.replicate 32 1, 32, 0, e.npages⟩
  ok e hpos := plain_ok e.npages hpos
  npages _ := rfl

theorem copied_placed_pipe : ∃ s : State, s.walker = .returned 0 ∧
    (s.file.drop (3 * 32)).take (1 * 32) = onePage.image 32 7 3 := by
  obtain ⟨s, h, hrc, -⟩ := pipe_run
  let e : Emit := ⟨3, 1, .page ⟨7, .leaf []⟩⟩
  have hctx : (⟨4, [e]⟩ : Compact.Ctx).Ok := ⟨rfl, by decide, rfl⟩
  exact ⟨s, hrc, copied_placed plainEncoding hctx h (fun _ => rfl) hrc List.mem_cons_self⟩

end Mdbx.Copy
