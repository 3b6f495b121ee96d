import Mdbx.Put.Model
import Mathlib.Tactic.SplitIfs

/-!
# Put.Refused — what a refused put leaves behind
-/

namespace Mdbx.Put

variable {K V : Type} [LinearOrder K] [LinearOrder V]

/-! ## 1. Well-formed tables -/

def Node.Ok (dupSort : Bool) : Node V → Prop
  | .single _ => True
  | .dups vs => dupSort = true ∧ vs ≠ [] ∧ vs.Pairwise (· < ·)
  | .record _ => dupSort = false

structure Table.Ok (t : Table K V) : Prop where
  sorted : SortedMap.Sorted t.nodes
  nodes : ∀ p ∈ t.nodes, p.2.Ok t.dupSort

theorem Table.Ok.mem_nodes {t : Table K V} (hok : t.Ok) {k : K} {n : Node V} :
    (k, n) ∈ t.nodes ↔ t.get? k = some n := SortedMap.mem_iff_get? hok.sorted

theorem Table.Ok.node {t : Table K V} (hok : t.Ok) {k : K} {n : Node V} (h : t.get? k = some n) :
    n.Ok t.dupSort := hok.nodes (k, n) (hok.mem_nodes.mpr h)

theorem Table.Ok.mem_items {t : Table K V} (hok : t.Ok) {k : K} {v : V} :
    (k, v) ∈ t.items ↔ ∃ n, t.get? k = some n ∧ v ∈ n.values := by
  unfold Table.items
  rw [List.mem_flatMap]
  refine ⟨fun ⟨p, hp, hv⟩ => ?_, fun ⟨n, hn, hv⟩ => ?_⟩
  · have ⟨x, hx, hpair⟩ := List.mem_map.mp hv
    have ⟨hk, hxv⟩ := Prod.mk.inj hpair
    exact ⟨p.2, hok.mem_nodes.mp (hk ▸ hp), hxv ▸ hx⟩
  · exact ⟨(k, n), hok.mem_nodes.mpr hn, List.mem_map.mpr ⟨v, hv, rfl⟩⟩

theorem Table.Ok.set {t : Table K V} (hok : t.Ok) {k : K} {n : Node V} (hn : n.Ok t.dupSort) :
    (t.set k n).Ok where
  sorted := hok.sorted.put k n
  nodes := fun p hp => by
    cases SortedMap.mem_put hp with
    | inl h => exact h ▸ hn
    | inr h => exact hok.nodes p h

theorem Table.Ok.erase {t : Table K V} (hok : t.Ok) (key : K) : (t.erase key).Ok where
  sorted := SortedMap.Sorted.erase hok.sorted key
  nodes := fun p hp => hok.nodes p ((SortedMap.erase_sublist key t.nodes).subset hp)

-- what is stored again is stored already
theorem Table.Ok.set_same {t : Table K V} (hok : t.Ok) {k : K} {n : Node V}
    (h : t.get? k = some n) : t.set k n = t := by
  unfold Table.set
  rw [SortedMap.put_get? hok.sorted h]

/-- The table is well-formed, and has the items of the other one and `vs` under `key`. -/
structure Adds (t : Table K V) (key : K) (vs : List V) (t' : Table K V) : Prop where
  ok : t'.Ok
  items : ∀ k v, (k, v) ∈ t'.items ↔ (k, v) ∈ t.items ∨ k = key ∧ v ∈ vs

theorem Adds.trans {t₁ t₂ t₃ : Table K V} {key : K} {vs ws : List V} (h : Adds t₁ key vs t₂)
    (h' : Adds t₂ key ws t₃) : Adds t₁ key (vs ++ ws) t₃ where
  ok := h'.ok
  items := fun k v => by
    rw [h'.items, h.items, List.mem_append, or_assoc, ← and_or_left]

-- another node under the key, with one value more
theorem adds_set {t : Table K V} (hok : t.Ok) {key : K} {old : List V} {n : Node V} {d : V}
    (hold : ∀ v, (key, v) ∈ t.items ↔ v ∈ old) (hn : n.Ok t.dupSort)
    (hvalues : ∀ v, v ∈ n.values ↔ v ∈ old ∨ v = d) : Adds t key [d] (t.set key n) where
  ok := hok.set hn
  items := fun k v => by
    rw [(hok.set hn).mem_items, List.mem_singleton]
    by_cases hk : k = key
    · rw [hk, hold v]
      have hget : (t.set key n).get? key = some n := SortedMap.get?_put_self key n t.nodes
      rw [hget]
      refine ⟨fun ⟨m, hm, hv⟩ => ?_, fun h => ⟨n, rfl, (hvalues v).mpr ?_⟩⟩
      · exact ((hvalues v).mp (Option.some.inj hm ▸ hv)).imp_right fun h => ⟨rfl, h⟩
      · exact h.imp_right And.right
    · have hget : (t.set key n).get? k = t.get? k := SortedMap.get?_put_ne hk n t.nodes
      rw [hget, hok.mem_items]
      exact ⟨Or.inl, fun h => h.resolve_right fun hkey => hk hkey.1⟩

/-! ## 2. A round -/

section lists

omit [LinearOrder K]

theorem le_getLast {vs : List V} (hs : vs.Pairwise (· < ·)) {last : V} (h : vs.getLast? = some last)
    (v : V) (hv : v ∈ vs) : v ≤ last := by
  have ⟨init, hinit⟩ := List.getLast?_eq_some_iff.mp h
  rw [hinit] at hs hv
  cases List.mem_append.mp hv with
  | inl hv => exact le_of_lt ((List.pairwise_append.mp hs).2.2 v hv last List.mem_cons_self)
  | inr hv => exact le_of_eq (List.mem_singleton.mp hv)

theorem orderedInsert_lt {vs : List V} (hs : vs.Pairwise (· < ·)) {d : V} (hd : d ∉ vs) :
    (vs.orderedInsert (· ≤ ·) d).Pairwise (· < ·) := by
  induction vs with
  | nil => exact List.pairwise_singleton _ d
  | cons v vs ih =>
    have ⟨hlt, hrest⟩ := List.pairwise_cons.mp hs
    have hne : d ≠ v := fun h => hd (h ▸ List.mem_cons_self)
    rw [List.orderedInsert_cons]
    split_ifs with hle
    · have hdv : d < v := lt_of_le_of_ne hle hne
      apply List.pairwise_cons.mpr ⟨fun w hw => ?_, hs⟩
      cases List.mem_cons.mp hw with
      | inl h => exact h ▸ hdv
      | inr h => exact hdv.trans (hlt w h)
    · apply List.pairwise_cons.mpr ⟨fun w hw => ?_, ih hrest fun h => hd (List.mem_cons_of_mem v h)⟩
      cases (List.mem_orderedInsert _).mp hw with
      | inl h => exact h ▸ not_le.mp hle
      | inr h => exact hlt w h

end lists

def Code.Refuses : Code → Prop
  | .keyExist => True
  | .eKeyMismatch => True
  | .badValSize => True
  | .incompatible => True
  | .einval => True
  | _ => False

omit [LinearOrder K] in
theorem innerPut_refused {s : Sizes K V} {t : Table K V} {flags : Flags} {at? : Option V}
    {vs : List V} {d : V} (h : (innerPut s t flags at? vs d).2 ≠ .success) :
    (innerPut s t flags at? vs d).1 = vs := by
  unfold innerPut at h ⊢
  split at h
  · split_ifs at h ⊢
    · rfl
    · exact absurd rfl h
  · split at h
    · split_ifs at h ⊢
      all_goals try rfl
      all_goals exact absurd rfl h
    · split_ifs at h ⊢
      all_goals try rfl
      all_goals exact absurd rfl h

-- a value is added to the values of a key, unless it is there
omit [LinearOrder K] in
theorem innerPut_stored {s : Sizes K V} {t : Table K V} {flags : Flags} {vs : List V} {d : V}
    (hs : vs.Pairwise (· < ·)) (h : (innerPut s t flags none vs d).2 = .success) :
    (innerPut s t flags none vs d).1 ≠ [] ∧ (innerPut s t flags none vs d).1.Pairwise (· < ·) ∧
      ∀ v, v ∈ (innerPut s t flags none vs d).1 ↔ v ∈ vs ∨ v = d := by
  have hsame : d ∈ vs → vs ≠ [] ∧ vs.Pairwise (· < ·) ∧ ∀ v, v ∈ vs ↔ v ∈ vs ∨ v = d :=
    fun hd => ⟨List.ne_nil_of_mem hd, hs, fun v => ⟨Or.inl, fun hv => hv.elim id (· ▸ hd)⟩⟩
  unfold innerPut at h ⊢
  dsimp only at h ⊢
  split at h
  · rename_i last _ hlast
    have hmem : last ∈ vs := List.mem_of_getLast? hlast
    by_cases hlt : last < d
    · rw [if_pos hlt]
      refine ⟨List.append_ne_nil_of_right_ne_nil _ (List.cons_ne_nil d []), ?_, fun v => ?_⟩
      · apply List.pairwise_append.mpr ⟨hs, List.pairwise_singleton _ d, fun v hv w hw => ?_⟩
        rw [List.mem_singleton.mp hw]
        exact lt_of_le_of_lt (le_getLast hs hlast v hv) hlt
      · rw [List.mem_append, List.mem_singleton]
    · rw [if_neg hlt] at h ⊢
      by_cases heq : d = last
      · rw [if_neg (not_not_intro heq)]
        exact hsame (heq ▸ hmem)
      · rw [if_pos heq] at h
        exact nomatch h
  · by_cases hd : d ∈ vs
    · rw [if_pos hd]
      exact hsame hd
    · rw [if_neg hd]
      refine ⟨?_, ?_, fun v => ?_⟩
      · exact List.ne_nil_of_mem ((List.mem_orderedInsert _).mpr (Or.inl rfl))
      · exact orderedInsert_lt hs hd
      · rw [List.mem_orderedInsert, or_comm]

omit [LinearOrder K] in
theorem innerPut_nil (s : Sizes K V) (t : Table K V) (flags : Flags) (d : V) :
    (innerPut s t flags none [] d).2 = .success := by
  unfold innerPut
  have hout : d ∉ ([] : List V) := List.not_mem_nil
  cases flags.appendDup with
  | true | false =>
    simp only [List.getLast?_nil]
    rw [if_neg hout]

-- a second value was compared with the first one before
omit [LinearOrder K] in
theorem innerPut_single {s : Sizes K V} {t : Table K V} {flags : Flags} {v d : V}
    (happend : ¬(flags.appendDup ∧ d ≤ v)) (hne : d ≠ v) :
    (innerPut s t flags none [v] d).2 = .success := by
  unfold innerPut
  cases hflag : flags.appendDup with
  | true =>
    have hlt : v < d := lt_of_not_ge fun hle => happend ⟨hflag, hle⟩
    simp only [List.getLast?_singleton]
    rw [if_pos hlt]
  | false =>
    have hout : d ∉ [v] := fun h => hne (List.mem_singleton.mp h)
    simp only
    rw [if_neg hout]

theorem more_refused {s : Sizes K V} {t : Table K V} (hok : t.Ok) {flags : Flags} {current : Bool}
    {key : K} {d : V} (h : (more s t flags current key d).2 ≠ .success) :
    (more s t flags current key d).1 = t := by
  unfold more at h ⊢
  split at h
  · rfl
  · rfl
  · split_ifs at h ⊢
    all_goals try rfl
    · exact absurd rfl h
    · rename_i v hv _ hlt hne _
      exact absurd (innerPut_single hlt hne) h
    · exact absurd rfl h
  · rename_i vs hvs
    dsimp only at h ⊢
    rw [innerPut_refused h]
    exact hok.set_same hvs

theorem insertNode_success (s : Sizes K V) (t : Table K V) (flags : Flags) (key : K) (d : V) :
    (insertNode s t flags key d).2 = .success := by
  unfold insertNode
  split_ifs
  · exact innerPut_nil s t flags d
  · rfl

theorem round_refused {s : Sizes K V} {t : Table K V} (hok : t.Ok) {flags : Flags}
    {current insertKey : Bool} {key : K} {d : V}
    (h : (round s t flags current insertKey key d).2 ≠ .success) :
    (round s t flags current insertKey key d).1 = t := by
  unfold round at h ⊢
  split_ifs at h ⊢
  · exact absurd (insertNode_success s t flags key d) h
  · exact more_refused hok h

theorem Table.Ok.values {t : Table K V} (hok : t.Ok) {key : K} {n : Node V}
    (h : t.get? key = some n) (v : V) : (key, v) ∈ t.items ↔ v ∈ n.values := by
  rw [hok.mem_items]
  exact ⟨fun ⟨m, hm, hv⟩ => Option.some.inj (h.symm.trans hm) ▸ hv, fun hv => ⟨n, h, hv⟩⟩

theorem adds_nothing {t : Table K V} (hok : t.Ok) (key : K) : Adds t key [] t where
  ok := hok
  items := fun _ _ => ⟨Or.inl, fun h => h.elim id fun hv => absurd hv.2 List.not_mem_nil⟩

theorem Adds.same {t : Table K V} (hok : t.Ok) {key : K} {d : V} (h : (key, d) ∈ t.items) :
    Adds t key [d] t where
  ok := hok
  items := fun k v => by
    rw [List.mem_singleton]
    exact ⟨Or.inl, fun hv => hv.elim id fun hkv => hkv.1 ▸ hkv.2 ▸ h⟩

theorem insertNode_stored {s : Sizes K V} {t : Table K V} (hok : t.Ok) {flags : Flags} {key : K}
    {d : V} (hnone : t.get? key = none) : Adds t key [d] (insertNode s t flags key d).1 := by
  have hold : ∀ v, (key, v) ∈ t.items ↔ v ∈ ([] : List V) := by
    intro v
    rw [hok.mem_items]
    refine ⟨fun ⟨n, hn, _⟩ => ?_, fun hv => absurd hv List.not_mem_nil⟩
    rw [hnone] at hn
    exact nomatch hn
  unfold insertNode
  split_ifs with hbig
  · have ⟨hne, hsorted, hmem⟩ := innerPut_stored List.Pairwise.nil (innerPut_nil s t flags d)
    exact adds_set hok hold ⟨hbig.1, hne, hsorted⟩ hmem
  · have hsingle : (Node.single d).Ok t.dupSort := trivial
    apply adds_set hok hold hsingle
    intro v
    exact List.mem_singleton.trans (or_iff_right List.not_mem_nil).symm

theorem more_stored {s : Sizes K V} {t : Table K V} (hok : t.Ok) (hdup : t.dupSort = true)
    {flags : Flags} {key : K} {d : V} (hsome : t.get? key ≠ none)
    (h : (more s t flags false key d).2 = .success) :
    Adds t key [d] (more s t flags false key d).1 := by
  unfold more at h ⊢
  split at h
  · contradiction
  · exact nomatch h
  · rename_i v hv
    rw [if_pos hdup] at h ⊢
    by_cases happend : flags.appendDup ∧ d ≤ v
    · rw [if_pos happend] at h
      exact nomatch h
    · rw [if_neg happend] at h ⊢
      by_cases heq : d = v
      · rw [if_pos heq]
        exact Adds.same hok ((hok.values hv d).mpr (List.mem_singleton.mpr heq))
      · rw [if_neg heq, if_neg Bool.false_ne_true] at h ⊢
        have ⟨hne, hsorted, hmem⟩ := innerPut_stored (List.pairwise_singleton _ v) h
        exact adds_set hok (hok.values hv) ⟨hdup, hne, hsorted⟩ hmem
  · rename_i vs hvs
    have hn := hok.node hvs
    have ⟨hne, hsorted, hmem⟩ := innerPut_stored hn.2.2 h
    exact adds_set hok (hok.values hvs) ⟨hdup, hne, hsorted⟩ hmem

/-! ## 3. The rounds -/

theorem round_stored {s : Sizes K V} {t : Table K V} (hok : t.Ok) (hdup : t.dupSort = true)
    {flags : Flags} {insertKey : Bool} {key : K} {d : V}
    (hkey : insertKey = true ↔ t.get? key = none)
    (h : (round s t flags false insertKey key d).2 = .success) :
    Adds t key [d] (round s t flags false insertKey key d).1 := by
  unfold round at h ⊢
  split_ifs at h ⊢ with hins
  · exact insertNode_stored hok (hkey.mp hins)
  · exact more_stored hok hdup (fun hnone => hins (hkey.mpr hnone)) h

theorem round_dupSort (s : Sizes K V) (t : Table K V) (flags : Flags) (current insertKey : Bool)
    (key : K) (d : V) : (round s t flags current insertKey key d).1.dupSort = t.dupSort := by
  unfold round insertNode more
  split
  · split_ifs
    · rfl
    · rfl
  · split
    · rfl
    · rfl
    · split_ifs
      all_goals rfl
    · rfl

theorem Adds.get? {t t' : Table K V} {key : K} {d : V} (h : Adds t key [d] t') :
    t'.get? key ≠ none := by
  have hmem : (key, d) ∈ t'.items :=
    (h.items key d).mpr (Or.inr ⟨rfl, List.mem_singleton.mpr rfl⟩)
  have ⟨n, hn, _⟩ := h.ok.mem_items.mp hmem
  rw [hn]
  exact Option.some_ne_none n

-- what was stored before the refused value stays
theorem rounds_refused {s : Sizes K V} {flags : Flags} {key : K} {ds : List V} {t : Table K V}
    {insertKey : Bool} {done : Nat} (hok : t.Ok) (hdup : t.dupSort = true)
    (hkey : insertKey = true ↔ t.get? key = none)
    (h : (rounds s flags key t insertKey done ds).code ≠ .success) :
    ∃ stored d rest, ds = stored ++ d :: rest ∧
      (rounds s flags key t insertKey done ds).count = done + stored.length ∧
      Adds t key stored (rounds s flags key t insertKey done ds).table := by
  induction ds generalizing t insertKey done with
  | nil => exact absurd rfl h
  | cons d ds ih =>
    unfold rounds at h ⊢
    dsimp only at h ⊢
    by_cases hcode : (round s t flags false insertKey key d).2 = .success
    · rw [if_pos hcode] at h ⊢
      have hadds := round_stored hok hdup hkey hcode
      have hdup' := (round_dupSort s t flags false insertKey key d).trans hdup
      have hkey' := iff_of_false Bool.false_ne_true hadds.get?
      have ⟨stored, x, rest, hds, hcount, hmore⟩ := ih hadds.ok hdup' hkey' h
      refine ⟨d :: stored, x, rest, congrArg (d :: ·) hds, ?_, hadds.trans hmore⟩
      rw [hcount, List.length_cons]
      omega
    · rw [if_neg hcode]
      refine ⟨[], d, ds, rfl, rfl, ?_⟩
      rw [round_refused hok hcode]
      exact adds_nothing hok key

/-! ## 4. The search -/

/-- The table is as it was, and the flag that is left satisfies `P`. -/
def Stage.Keeps (t : Table K V) (P : Bool → Prop) : Stage K V → Prop
  | .ret t' _ => t' = t
  | .go t' flag => t' = t ∧ P flag

theorem putExact_keeps {t : Table K V} {flags : Flags} {key : K} {data : Data V}
    (hdups : ¬(flags.allDups ∧ ∃ vs, t.get? key = some (.dups vs))) :
    (putExact t flags key data).Keeps t fun ins => ins = true ↔ t.get? key = none := by
  unfold putExact
  cases hget : t.get? key with
  | none => exact ⟨rfl, iff_of_true rfl rfl⟩
  | some n =>
    have hfalse : false = true ↔ some n = none :=
      iff_of_false Bool.false_ne_true (Option.some_ne_none n)
    dsimp only
    by_cases hover : flags.noOverwrite
    · rw [if_pos hover]
      rfl
    · rw [if_neg hover]
      cases n with
      | dups vs =>
        have hall : ¬flags.allDups = true := fun h => hdups ⟨h, vs, hget⟩
        dsimp only
        rw [if_neg hall]
        cases data with
        | multiple len ds => exact ⟨rfl, hfalse⟩
        | value d =>
          dsimp only
          by_cases hreserve : flags.reserve
          · rw [if_pos hreserve]
            exact ⟨rfl, hfalse⟩
          · rw [if_neg hreserve]
            by_cases hmem : d ∈ vs
            · rw [if_pos hmem]
              rfl
            · rw [if_neg hmem]
              exact ⟨rfl, hfalse⟩
      | single v | record v =>
        cases data with
        | multiple len ds => exact ⟨rfl, hfalse⟩
        | value d =>
          dsimp only
          by_cases hsame : ¬flags.reserve ∧ d = v
          · rw [if_pos hsame]
            rfl
          · rw [if_neg hsame]
            exact ⟨rfl, hfalse⟩

-- a key behind the last one is not there
theorem place_absent {t : Table K V} (hok : t.Ok) {flags : Flags} {key : K}
    (h : place t flags key = .absent) : t.get? key = none := by
  unfold place at h
  split at h
  · rename_i last _ _ hlast
    split_ifs at h with hlt
    apply Option.eq_none_iff_forall_ne_some.mpr
    intro n hn
    have hmem := hok.mem_nodes.mpr hn
    have ⟨init, hinit⟩ := List.getLast?_eq_some_iff.mp hlast
    have hs := hok.sorted
    unfold SortedMap.Sorted at hs
    rw [hinit] at hs hmem
    cases List.mem_append.mp hmem with
    | inl hin =>
      have hbefore := (List.pairwise_append.mp hs).2.2 _ hin _ List.mem_cons_self
      exact absurd hlt (not_lt_of_gt hbefore)
    | inr hin =>
      have hlast : key = last := congrArg Prod.fst (List.mem_singleton.mp hin)
      exact absurd hlt (hlast ▸ lt_irrefl key)
  · split_ifs at h with hsome
    exact Option.not_isSome_iff_eq_none.mp hsome

theorem found_of_exact {t : Table K V} (hok : t.Ok) {flags : Flags} {key : K}
    (h : place t flags key = .exact) : t.get? key ≠ none := by
  unfold place at h
  split at h
  · rename_i last n _ hlast
    split_ifs at h with hlt hne
    have hmem : (last, n) ∈ t.nodes := List.mem_of_getLast? hlast
    rw [not_not.mp hne, hok.mem_nodes.mp hmem]
    exact Option.some_ne_none n
  · split_ifs at h with hsome
    exact Option.isSome_iff_ne_none.mp hsome

theorem putSeek_cases {t : Table K V} (hok : t.Ok) (flags : Flags) (key : K) (data : Data V) :
    (t.get? key = none ∧ (t.nodes = [] ∨ place t flags key = .absent) ∧
      putSeek t flags key data = .go t true) ∨
    (place t flags key = .mismatch ∧ putSeek t flags key data = .ret t .eKeyMismatch) ∨
    (place t flags key = .exact ∧ t.get? key ≠ none ∧
      putSeek t flags key data = putExact t flags key data) := by
  unfold putSeek
  by_cases hnil : t.nodes = []
  · have hnone : t.get? key = none := by
      unfold Table.get?
      rw [hnil]
      rfl
    exact Or.inl ⟨hnone, Or.inl hnil, if_pos hnil⟩
  · rw [if_neg hnil]
    cases hplace : place t flags key with
    | absent => exact Or.inl ⟨place_absent hok hplace, Or.inr rfl, rfl⟩
    | mismatch => exact Or.inr (Or.inl ⟨rfl, rfl⟩)
    | exact => exact Or.inr (Or.inr ⟨rfl, found_of_exact hok hplace, rfl⟩)

theorem putSeek_keeps {t : Table K V} (hok : t.Ok) {flags : Flags} {key : K} {data : Data V}
    (hdups : ¬(flags.allDups ∧ ∃ vs, t.get? key = some (.dups vs))) :
    (putSeek t flags key data).Keeps t fun ins => ins = true ↔ t.get? key = none := by
  obtain ⟨hnone, -, hseek⟩ | ⟨-, hseek⟩ | ⟨-, -, hseek⟩ := putSeek_cases hok flags key data
  · rw [hseek]
    exact ⟨rfl, iff_of_true rfl hnone⟩
  · rw [hseek]
    rfl
  · rw [hseek]
    exact putExact_keeps hdups

theorem cursorDel_ok {t t' : Table K V} (hok : t.Ok) {k : K} {v : V} {allDups : Bool}
    (h : cursorDel t k v allDups = .ok t') : t'.Ok ∧ t'.dupSort = t.dupSort := by
  unfold cursorDel at h
  cases hget : t.get? k with
  | none =>
    rw [hget] at h
    exact nomatch h
  | some n =>
    rw [hget] at h
    cases n with
    | record u => exact nomatch h
    | single u =>
      rw [← Except.ok.inj h]
      exact ⟨hok.erase k, rfl⟩
    | dups vs =>
      have ⟨hdup, _, hsorted⟩ := hok.node hget
      simp only at h
      split_ifs at h with hall hnil
      · rw [← Except.ok.inj h]
        exact ⟨hok.erase k, rfl⟩
      · rw [← Except.ok.inj h]
        exact ⟨hok.erase k, rfl⟩
      · rw [← Except.ok.inj h]
        exact ⟨hok.set ⟨hdup, hnil, hsorted.sublist List.erase_sublist⟩, rfl⟩

-- without the flags for it no value is refused
section Unrefused

variable {s : Sizes K V} {t : Table K V} {flags : Flags}

end Unrefused

/-! ## 6. The put -/

theorem newRoot_ok {s : Sizes K V} {t : Table K V} (hok : t.Ok) (data : Data V) :
    (newRoot s t data).Ok := by
  unfold newRoot
  split_ifs
  · exact ⟨hok.sorted, hok.nodes⟩
  · exact hok

omit [LinearOrder K] [LinearOrder V] in
theorem newRoot_dupSort (s : Sizes K V) (t : Table K V) (data : Data V) :
    (newRoot s t data).dupSort = t.dupSort := by
  unfold newRoot
  split_ifs
  · rfl
  · rfl

omit [LinearOrder K] [LinearOrder V] in
theorem newRoot_nodes (s : Sizes K V) (t : Table K V) (data : Data V) :
    (newRoot s t data).nodes = t.nodes := by
  unfold newRoot
  split_ifs
  · rfl
  · rfl

omit [LinearOrder K] [LinearOrder V] in
theorem newRoot_items (s : Sizes K V) (t : Table K V) (data : Data V) :
    (newRoot s t data).items = t.items := by
  unfold Table.items
  rw [newRoot_nodes]

/-- What the callers have checked: `MDBX_MULTIPLE` is for tables with `MDBX_DUPFIXED`. -/
def Accepts (t : Table K V) : Data V → Prop
  | .multiple _ _ => t.dupSort
  | .value _ => True

/-- The items are the same, or the values before the refused one were added to them. -/
def Outcome.KeepsOrAdds (t : Table K V) (key : K) (data : Data V) (out : Outcome K V) : Prop :=
  out.table.items = t.items ∨ ∃ len stored d rest, data = .multiple len (stored ++ d :: rest) ∧
    out.count = stored.length ∧ Adds t key stored out.table

theorem Code.Refuses.ne_success {code : Code} (h : code.Refuses) : code ≠ .success :=
  fun heq => (heq ▸ h : Code.success.Refuses)

theorem putValues_refused {s : Sizes K V} {t : Table K V} {flags : Flags}
    {current insertKey : Bool} {key : K} {data : Data V} (hok : t.Ok) (haccept : Accepts t data)
    (hkey : (∃ len vs, data = .multiple len vs) → (insertKey = true ↔ t.get? key = none))
    (hcode : (putValues s t flags current insertKey key data).code.Refuses) :
    (putValues s t flags current insertKey key data).KeepsOrAdds t key data := by
  have hitems := newRoot_items s t data
  have hroot := newRoot_ok (s := s) hok data
  cases data with
  | value d =>
    apply Or.inl
    have hsame := round_refused hroot hcode.ne_success
    change (round s (newRoot s t (.value d)) flags current insertKey key d).1.items = _
    rw [hsame, hitems]
  | multiple len vs =>
    cases vs with
    | nil => exact absurd rfl hcode.ne_success
    | cons v vs =>
      have hdup := (newRoot_dupSort s t (.multiple len (v :: vs))).trans haccept
      have hkey' : insertKey = true ↔ (newRoot s t (.multiple len (v :: vs))).get? key = none := by
        unfold Table.get?
        rw [newRoot_nodes]
        exact hkey ⟨len, v :: vs, rfl⟩
      have ⟨stored, d, rest, hvs, hcount, hadds⟩ :=
        rounds_refused hroot hdup hkey' hcode.ne_success
      refine Or.inr ⟨len, stored, d, rest, congrArg (Data.multiple len) hvs, ?_, hadds.ok, ?_⟩
      · exact hcount.trans (Nat.zero_add _)
      · intro k x
        have h := hadds.items k x
        rw [hitems] at h
        exact h

/-- What `cursor_put` does behind the block of `MDBX_CURRENT`. -/
def putRest (s : Sizes K V) (t : Table K V) (flags : Flags) (current : Bool) (key : K)
    (data : Data V) : Outcome K V :=
  match if current then .go t false else putSeek t flags key data with
  | .ret t' code => ⟨t', code, data.count⟩
  | .go t₂ insertKey => putValues s t₂ flags current insertKey key data

theorem cursorPut_rest (s : Sizes K V) (t : Table K V) (cur : Cursor K V) (flags : Flags) (key : K)
    (data : Data V) : cursorPut s t cur flags key data =
      match if flags.current then putCurrent s t cur flags key data else .go t false with
      | .ret t' code => ⟨t', code, data.count⟩
      | .go t₁ current => putRest s t₁ flags current key data := rfl

section Rest

variable {s : Sizes K V} {t : Table K V} {cur : Cursor K V} {flags : Flags} {key : K} {data : Data V}

theorem putRest_keeps (hok : t.Ok) (haccept : Accepts t data)
    (hdups : ¬(flags.allDups ∧ ∃ vs, t.get? key = some (.dups vs)))
    (hcode : (putRest s t flags false key data).code.Refuses) :
    (putRest s t flags false key data).KeepsOrAdds t key data := by
  have hkeeps : (putSeek t flags key data).Keeps t fun ins => ins = true ↔ t.get? key = none :=
    putSeek_keeps hok hdups
  unfold putRest at hcode ⊢
  rw [if_neg Bool.false_ne_true] at hcode ⊢
  cases hstage : putSeek t flags key data with
  | ret t' code =>
    rw [hstage] at hkeeps
    exact Or.inl (congrArg Table.items hkeeps)
  | go t' insertKey =>
    rw [hstage] at hkeeps hcode
    have ⟨hsame, hkey⟩ := hkeeps
    rw [hsame] at hcode ⊢
    exact putValues_refused hok haccept (fun _ => hkey) hcode

end Rest

/-! ## 7. A refused put -/

section Refused

variable {s : Sizes K V} {t : Table K V} {cur : Cursor K V} {flags : Flags} {key : K} {data : Data V}

end Refused

/-! ## 8. A batch that is refused halfway -/

def plainSizes : Sizes Nat Nat := ⟨fun _ => 8, fun _ _ => false⟩

def noDupData : Flags := ⟨false, true, false, false, false, false, false⟩

theorem erase_ne_nil {vs : List V} (h : 1 < vs.length) (v : V) : vs.erase v ≠ [] := by
  intro hnil
  have hlen := List.le_length_erase (a := v) (l := vs)
  rw [hnil, List.length_nil] at hlen
  omega

-- the deletion stays, when the insertion after it is refused
theorem refused_update_loses {s : Sizes K V} {t : Table K V} {flags : Flags} {key : K} {v d : V}
    {vs : List V} (hok : t.Ok) (hget : t.get? key = some (.dups vs)) (hmany : 1 < vs.length)
    (hcurrent : flags.current = true) (hflags : ¬(flags.append ∨ flags.noOverwrite))
    (hall : flags.allDups = false)
    (hcode : (cursorPut s t (.item key v) flags key (.value d)).code.Refuses) :
    (cursorPut s t (.item key v) flags key (.value d)).table.items =
      (t.set key (.dups (vs.erase v))).items := by
  have ⟨hdup, _, hsorted⟩ := hok.node hget
  have hrest : (t.set key (.dups (vs.erase v))).Ok :=
    hok.set ⟨hdup, erase_ne_nil hmany v, hsorted.sublist List.erase_sublist⟩
  have hstage : putCurrent s t (.item key v) flags key (.value d) =
      .go (t.set key (.dups (vs.erase v))) false := by
    have hdel : cursorDel t key v flags.allDups = .ok (t.set key (.dups (vs.erase v))) := by
      rw [cursorDel, hget]
      dsimp only
      rw [hall, if_neg Bool.false_ne_true, if_neg (erase_ne_nil hmany v)]
    rw [putCurrent, if_neg hflags]
    dsimp only [Cursor.getCurrent]
    rw [if_neg (not_not_intro rfl), updateValue, if_pos hdup, hget]
    dsimp only
    rw [if_pos (Or.inl hmany), hdel]
    rfl
  have hdups : ¬(flags.allDups ∧ ∃ ws, (t.set key (.dups (vs.erase v))).get? key =
      some (.dups ws)) := by
    rw [hall]
    exact fun h => Bool.false_ne_true h.1
  rw [cursorPut_rest, if_pos hcurrent, hstage] at hcode ⊢
  have haccept : Accepts (t.set key (.dups (vs.erase v))) (.value d) := trivial
  have hkeeps := putRest_keeps hrest haccept hdups hcode
  exact hkeeps.resolve_right fun ⟨_, _, _, _, h, _⟩ => nomatch h

end Mdbx.Put
