import Mdbx.Put.Refused

/-!
# Put.Batch — a put of many values and puts of one value

What `MDBX_MULTIPLE` stores is what the values put one by one store, once the flags that are for the
batch as a whole have done their part.
-/

namespace Mdbx.Put

variable {K V : Type} [LinearOrder K] [LinearOrder V]

/-! ## 1. The values under the keys -/

def Table.content (t : Table K V) : List (K × List V) := SortedMap.mapVal Node.values t.nodes

def Table.valuesAt (t : Table K V) (key : K) : List V :=
  (SortedMap.get? key t.content).getD []

/-- A value is added in its place, unless it is there. -/
def add (vs : List V) (d : V) : List V := if d ∈ vs then vs else vs.orderedInsert (· ≤ ·) d

omit [LinearOrder V] in
theorem content_set (t : Table K V) (key : K) (n : Node V) :
    (t.set key n).content = SortedMap.put key n.values t.content :=
  (SortedMap.put_mapVal Node.values key n t.nodes).symm

omit [LinearOrder V] in
theorem get?_content (t : Table K V) (key : K) :
    SortedMap.get? key t.content = (t.get? key).map Node.values :=
  SortedMap.get?_mapVal Node.values key t.nodes

omit [LinearOrder V] in
theorem valuesAt_of_get? {t : Table K V} {key : K} {n : Node V} (h : t.get? key = some n) :
    t.valuesAt key = n.values := by
  unfold Table.valuesAt
  rw [get?_content, h]
  rfl

omit [LinearOrder V] in
theorem valuesAt_of_none {t : Table K V} {key : K} (h : t.get? key = none) : t.valuesAt key = [] := by
  unfold Table.valuesAt
  rw [get?_content, h]
  rfl

-- what is put again is there
theorem content_put_same {t : Table K V} (hok : t.Ok) {key : K} {n : Node V}
    (h : t.get? key = some n) : SortedMap.put key n.values t.content = t.content := by
  rw [← content_set, hok.set_same h]

omit [LinearOrder K] [LinearOrder V] in
theorem content_newRoot (s : Sizes K V) (t : Table K V) (data : Data V) :
    (newRoot s t data).content = t.content := by
  unfold Table.content
  rw [newRoot_nodes]

/-! ## 2. One value -/

/-- With `MDBX_APPENDDUP` a value is behind the others, or it is there. -/
def Fits (flags : Flags) (vs : List V) (d : V) : Prop :=
  flags.appendDup = true → d ∈ vs ∨ ∀ v ∈ vs, v < d

omit [LinearOrder K] in
theorem orderedInsert_of_last {vs : List V} {d : V} (h : ∀ v ∈ vs, v < d) :
    vs.orderedInsert (· ≤ ·) d = vs ++ [d] := by
  induction vs with
  | nil => rfl
  | cons v vs ih =>
    have hlt : v < d := h v List.mem_cons_self
    rw [List.orderedInsert_cons, if_neg (not_le_of_gt hlt),
      ih fun w hw => h w (List.mem_cons_of_mem v hw)]
    rfl

omit [LinearOrder K] in
theorem add_of_last {vs : List V} {d : V} (h : ∀ v ∈ vs, v < d) : add vs d = vs ++ [d] := by
  unfold add
  rw [if_neg fun hmem => lt_irrefl d (h d hmem), orderedInsert_of_last h]

-- the nested put adds the value
omit [LinearOrder K] in
theorem innerPut_add {s : Sizes K V} {t : Table K V} {flags : Flags} {vs : List V} {d : V}
    (hs : vs.Pairwise (· < ·)) (h : (innerPut s t flags none vs d).2 = .success) :
    (innerPut s t flags none vs d).1 = add vs d ∧ Fits flags vs d := by
  unfold innerPut at h ⊢
  dsimp only at h ⊢
  split at h
  · rename_i last _ hlast
    have hbelow := le_getLast hs hlast
    by_cases hlt : last < d
    · have hall : ∀ v ∈ vs, v < d := fun v hv => lt_of_le_of_lt (hbelow v hv) hlt
      rw [if_pos hlt, add_of_last hall]
      exact ⟨rfl, fun _ => Or.inr hall⟩
    · rw [if_neg hlt] at h ⊢
      by_cases heq : d = last
      · have hmem : d ∈ vs := heq ▸ List.mem_of_getLast? hlast
        rw [if_neg (not_not_intro heq)]
        exact ⟨(if_pos hmem).symm, fun _ => Or.inl hmem⟩
      · rw [if_pos heq] at h
        exact nomatch h
  · rename_i hno
    have hfits : Fits flags vs d := by
      intro hflag
      cases hlast : vs.getLast? with
      | none =>
        rw [List.getLast?_eq_none_iff.mp hlast]
        exact Or.inr fun v hv => absurd hv List.not_mem_nil
      | some last => exact absurd hlast (hno last hflag)
    unfold add
    by_cases hmem : d ∈ vs
    · rw [if_pos hmem, if_pos hmem]
      exact ⟨rfl, hfits⟩
    · rw [if_neg hmem, if_neg hmem]
      exact ⟨rfl, hfits⟩

-- where the value fits, and is not there, nothing refuses it
omit [LinearOrder K] in
theorem innerPut_fits {s : Sizes K V} {t : Table K V} {flags : Flags} {vs : List V} {d : V}
    (hfits : Fits flags vs d) (hmem : d ∉ vs) : (innerPut s t flags none vs d).2 = .success := by
  unfold innerPut
  cases hflag : flags.appendDup with
  | false =>
    simp only
    rw [if_neg hmem]
  | true =>
    cases hlast : vs.getLast? with
    | none =>
      simp only
      rw [if_neg hmem]
    | some last =>
      have hlt := (hfits hflag).resolve_left hmem last (List.mem_of_getLast? hlast)
      simp only
      rw [if_pos hlt]

/-- The content of a table with a value more. -/
structure Stores (t : Table K V) (key : K) (d : V) (t' : Table K V) : Prop where
  ok : t'.Ok
  dupSort : t'.dupSort = t.dupSort
  content : t'.content = SortedMap.put key (add (t.valuesAt key) d) t.content

theorem insertNode_stores (s : Sizes K V) {t : Table K V} (hok : t.Ok) (flags : Flags) {key : K}
    (d : V) (hnone : t.get? key = none) : Stores t key d (insertNode s t flags key d).1 := by
  have hround : (round s t flags false true key d).1 = (insertNode s t flags key d).1 := rfl
  refine ⟨(insertNode_stored hok hnone).ok, ?_, ?_⟩
  · rw [← hround]
    exact round_dupSort s t flags false true key d
  · rw [valuesAt_of_none hnone]
    unfold insertNode
    split_ifs
    · have hadd := (innerPut_add List.Pairwise.nil (innerPut_nil s t flags d)).1
      show (t.set key (.dups _)).content = _
      rw [content_set, hadd]
      rfl
    · show (t.set key (.single d)).content = _
      rw [content_set]
      rfl

theorem more_stores {s : Sizes K V} {t : Table K V} (hok : t.Ok) (hdup : t.dupSort = true)
    {flags : Flags} {key : K} {d : V} (hsome : t.get? key ≠ none)
    (h : (more s t flags false key d).2 = .success) :
    Stores t key d (more s t flags false key d).1 ∧ Fits flags (t.valuesAt key) d := by
  have hadds := more_stored hok hdup hsome h
  have hsame : (more s t flags false key d).1.dupSort = t.dupSort :=
    round_dupSort s t flags false false key d
  unfold more at h hadds hsame ⊢
  cases hget : t.get? key with
  | none => exact absurd hget hsome
  | some n =>
    rw [hget] at h hadds hsame
    rw [valuesAt_of_get? hget]
    cases n with
    | record v => exact nomatch h
    | single v =>
      simp only [if_pos hdup] at h hadds hsame ⊢
      by_cases happend : flags.appendDup ∧ d ≤ v
      · rw [if_pos happend] at h
        exact nomatch h
      · have hfits : Fits flags [v] d := by
          intro hflag
          refine Or.inr fun w hw => ?_
          rw [List.mem_singleton.mp hw]
          exact lt_of_not_ge fun hle => happend ⟨hflag, hle⟩
        simp only [if_neg happend] at h hadds hsame ⊢
        by_cases heq : d = v
        · have hmem : d ∈ (Node.single v).values := List.mem_singleton.mpr heq
          simp only [if_pos heq] at hadds ⊢
          refine ⟨⟨hadds.ok, rfl, ?_⟩, hfits⟩
          unfold add
          rw [valuesAt_of_get? hget, if_pos hmem, content_put_same hok hget]
        · simp only [if_neg heq, if_neg Bool.false_ne_true] at h hadds hsame ⊢
          have hadd := (innerPut_add (List.pairwise_singleton _ v) h).1
          refine ⟨⟨hadds.ok, hsame, ?_⟩, hfits⟩
          rw [content_set, hadd, valuesAt_of_get? hget]
          rfl
    | dups vs =>
      have hadd := innerPut_add (hok.node hget).2.2 h
      refine ⟨⟨hadds.ok, hsame, ?_⟩, hadd.2⟩
      show (t.set key (.dups _)).content = _
      rw [content_set, valuesAt_of_get? hget]
      exact congrArg (SortedMap.put key · t.content) hadd.1

/-! ## 3. The search -/

def keys (t : Table K V) : List K := t.content.map Prod.fst

omit [LinearOrder K] [LinearOrder V] in
theorem getLast?_keys (t : Table K V) : (keys t).getLast? = t.nodes.getLast?.map Prod.fst := by
  unfold keys Table.content SortedMap.mapVal
  rw [List.map_map, List.getLast?_map]
  rfl

-- the place is a matter of the content
omit [LinearOrder V] in
theorem place_congr {t t' : Table K V} (h : t.content = t'.content) (flags : Flags) (key : K) :
    place t flags key = place t' flags key := by
  have hlast : t.nodes.getLast?.map Prod.fst = t'.nodes.getLast?.map Prod.fst := by
    rw [← getLast?_keys, ← getLast?_keys]
    unfold keys
    rw [h]
  have hsome : (t.get? key).isSome = (t'.get? key).isSome := by
    have hmap : (t.get? key).map Node.values = (t'.get? key).map Node.values := by
      rw [← get?_content, ← get?_content, h]
    rw [← Option.isSome_map, hmap, Option.isSome_map]
  unfold place
  cases flags.append with
  | false =>
    simp only
    rw [hsome]
  | true =>
    cases ht : t.nodes.getLast? with
    | none =>
      cases ht' : t'.nodes.getLast? with
      | none =>
        simp only
        rw [hsome]
      | some p =>
        rw [ht, ht'] at hlast
        exact nomatch hlast
    | some p =>
      cases ht' : t'.nodes.getLast? with
      | none =>
        rw [ht, ht'] at hlast
        exact nomatch hlast
      | some q =>
        rw [ht, ht'] at hlast
        have hkey : p.1 = q.1 := Option.some.inj hlast
        simp only [hkey]

/-- The search has come to the place of the key; the flag is `insert_key`. -/
inductive Ready (t : Table K V) (flags : Flags) (key : K) : Bool → Prop
  | absent (hnone : t.get? key = none) (hplace : t.nodes = [] ∨ place t flags key = .absent) :
      Ready t flags key true
  | found (hsome : t.get? key ≠ none) (hplace : place t flags key = .exact) :
      Ready t flags key false

omit [LinearOrder V] in
theorem Ready.flag_iff {t : Table K V} {flags : Flags} {key : K} {ins : Bool}
    (h : Ready t flags key ins) : ins = true ↔ t.get? key = none := by
  cases h with
  | absent hnone _ => exact iff_of_true rfl hnone
  | found hsome _ => exact iff_of_false Bool.false_ne_true hsome

omit [LinearOrder V] in
theorem get?_congr {t t' : Table K V} (h : t.content = t'.content) (key : K) :
    t.get? key = none ↔ t'.get? key = none := by
  rw [← Option.map_eq_none_iff (f := Node.values), ← get?_content, h, get?_content,
    Option.map_eq_none_iff]

omit [LinearOrder K] [LinearOrder V] in
theorem nodes_eq_nil_iff (t : Table K V) : t.nodes = [] ↔ t.content = [] :=
  List.map_eq_nil_iff.symm

omit [LinearOrder V] in
theorem Ready.congr {t t' : Table K V} {flags : Flags} {key : K} {ins : Bool}
    (h : Ready t flags key ins) (hsame : t.content = t'.content) : Ready t' flags key ins := by
  cases h with
  | absent hnone hplace =>
    refine .absent ((get?_congr hsame key).mp hnone) ?_
    rw [nodes_eq_nil_iff, ← hsame, ← nodes_eq_nil_iff, ← place_congr hsame]
    exact hplace
  | found hsome hplace =>
    refine .found (fun hc => hsome ((get?_congr hsame key).mpr hc)) ?_
    rw [← place_congr hsame]
    exact hplace

-- with `MDBX_APPEND` the key is the last one
omit [LinearOrder V] in
theorem place_of_last {t : Table K V} {flags : Flags} {key : K} (hsome : t.get? key ≠ none)
    (hlast : flags.append = true → (keys t).getLast? = some key) : place t flags key = .exact := by
  unfold place
  have hfound : (t.get? key).isSome = true := Option.isSome_iff_ne_none.mpr hsome
  cases happend : flags.append with
  | false =>
    simp only
    rw [if_pos hfound]
  | true =>
    have hkey := hlast happend
    rw [getLast?_keys] at hkey
    cases ht : t.nodes.getLast? with
    | none =>
      rw [ht] at hkey
      exact nomatch hkey
    | some p =>
      rw [ht] at hkey
      have heq : p.1 = key := Option.some.inj hkey
      simp only [heq, lt_irrefl, if_false, ne_eq, not_true_eq_false]

omit [LinearOrder V] in
theorem last_of_exact {t : Table K V} {flags : Flags} {key : K} (hsome : t.get? key ≠ none)
    (hplace : place t flags key = .exact) (happend : flags.append = true) :
    (keys t).getLast? = some key := by
  rw [getLast?_keys]
  unfold place at hplace
  rw [happend] at hplace
  cases ht : t.nodes.getLast? with
  | none =>
    have hnil : t.nodes = [] := List.getLast?_eq_none_iff.mp ht
    unfold Table.get? at hsome
    rw [hnil] at hsome
    exact absurd rfl hsome
  | some p =>
    rw [ht] at hplace
    simp only at hplace
    split_ifs at hplace with hlt hne
    rw [not_not.mp hne]
    rfl

-- keys before an absent one
theorem lt_of_absent {t : Table K V} (hok : t.Ok) {flags : Flags} {key : K}
    (hplace : t.nodes = [] ∨ place t flags key = .absent) (happend : flags.append = true) :
    ∀ p ∈ t.nodes, p.1 < key := by
  intro p hp
  cases ht : t.nodes.getLast? with
  | none =>
    rw [List.getLast?_eq_none_iff.mp ht] at hp
    exact absurd hp List.not_mem_nil
  | some q =>
    have hlt : q.1 < key := by
      cases hplace with
      | inl hnil =>
        rw [hnil] at hp
        exact absurd hp List.not_mem_nil
      | inr hplace =>
        unfold place at hplace
        rw [happend, ht] at hplace
        simp only at hplace
        split_ifs at hplace with hlt
        exact hlt
    have ⟨init, hinit⟩ := List.getLast?_eq_some_iff.mp ht
    have hs := hok.sorted
    unfold SortedMap.Sorted at hs
    rw [hinit] at hs hp
    cases List.mem_append.mp hp with
    | inl hin => exact ((List.pairwise_append.mp hs).2.2 p hin q List.mem_cons_self).trans hlt
    | inr hin => exact List.mem_singleton.mp hin ▸ hlt

theorem content_sorted {t : Table K V} (hok : t.Ok) : SortedMap.Sorted t.content := by
  unfold SortedMap.Sorted Table.content SortedMap.mapVal
  rw [List.pairwise_map]
  exact hok.sorted

-- once a value is stored, the key is found
theorem Ready.stored {t t' : Table K V} (hok : t.Ok) {flags : Flags} {key : K} {ins : Bool}
    {ws : List V} (h : Ready t flags key ins)
    (hcontent : t'.content = SortedMap.put key ws t.content) : Ready t' flags key false := by
  have hsome : t'.get? key ≠ none := by
    intro hnone
    have hget := get?_content t' key
    rw [hcontent, SortedMap.get?_put_self, hnone] at hget
    exact nomatch hget
  refine .found hsome (place_of_last hsome fun happend => ?_)
  unfold keys
  rw [hcontent]
  cases h with
  | absent hnone hplace =>
    have hall : ∀ p ∈ t.content, p.1 < key := by
      intro p hp
      have ⟨q, hq, hpq⟩ := List.mem_map.mp hp
      rw [← hpq]
      exact lt_of_absent hok hplace happend q hq
    rw [SortedMap.put_of_last hall, List.map_append, List.map_singleton, List.getLast?_concat]
  | found hfound hplace =>
    have hget : SortedMap.get? key t.content ≠ none := by
      rw [get?_content]
      exact fun hc => hfound (Option.map_eq_none_iff.mp hc)
    rw [SortedMap.keys_put (content_sorted hok) ws hget]
    exact last_of_exact hfound hplace happend

/-! ## 4. Puts of one value -/

/-- The flags that are for every value: what the others ask for is done once for a batch. -/
def Flags.rest (flags : Flags) : Flags :=
  { flags with noOverwrite := false, current := false, allDups := false }

def puts (s : Sizes K V) (cur : Cursor K V) (flags : Flags) (key : K) (t : Table K V)
    (vs : List V) : Table K V :=
  vs.foldl (fun t d => (cursorPut s t cur flags key (.value d)).table) t

theorem cursorPut_eq {s : Sizes K V} {t : Table K V} {cur : Cursor K V} {flags : Flags} {key : K}
    {data : Data V} (hcurrent : flags.current = false) :
    cursorPut s t cur flags key data = match putSeek t flags key data with
      | .ret t' code => ⟨t', code, data.count⟩
      | .go t₂ insertKey => putValues s t₂ flags false insertKey key data := by
  unfold cursorPut
  rw [if_neg (fun hc => Bool.false_ne_true (hcurrent.symm.trans hc))]
  rfl

-- a put of one value after the search
theorem putValues_value (s : Sizes K V) (t : Table K V) (flags : Flags) (current insertKey : Bool)
    (key : K) (d : V) : (putValues s t flags current insertKey key (.value d)).table =
      (round s (newRoot s t (.value d)) flags current insertKey key d).1 := rfl

omit [LinearOrder V] in
theorem newRoot_of_some {s : Sizes K V} {t : Table K V} {data : Data V} {key : K}
    (h : t.get? key ≠ none) : newRoot s t data = t := by
  unfold newRoot
  refine if_neg fun hnil => h ?_
  unfold Table.get?
  rw [hnil.1]
  rfl

-- a value that is there already
theorem stores_same {t : Table K V} (hok : t.Ok) {key : K} {d : V} {n : Node V}
    (hget : t.get? key = some n) (hmem : d ∈ n.values) : Stores t key d t := by
  refine ⟨hok, rfl, ?_⟩
  unfold add
  rw [valuesAt_of_get? hget, if_pos hmem, content_put_same hok hget]

theorem more_fits (s : Sizes K V) {t : Table K V} (hok : t.Ok) (hdup : t.dupSort = true)
    {flags : Flags} {key : K} {d : V} {n : Node V} (hget : t.get? key = some n)
    (hmem : d ∉ n.values) (hfits : Fits flags n.values d) :
    (more s t flags false key d).2 = .success := by
  unfold more
  rw [hget]
  cases n with
  | record v =>
    have hno : t.dupSort = false := hok.node hget
    rw [hdup] at hno
    exact nomatch hno
  | single v =>
    have hne : d ≠ v := fun heq => hmem (List.mem_singleton.mpr heq)
    have hnot : ¬ (flags.appendDup ∧ d ≤ v) := fun hc =>
      absurd hc.2 (not_le_of_gt ((hfits hc.1).resolve_left hmem v List.mem_cons_self))
    simp only [if_pos hdup, if_neg hnot, if_neg hne, if_neg Bool.false_ne_true]
    exact innerPut_fits hfits hmem
  | dups vs => exact innerPut_fits hfits hmem

/-- A put of one value that fits stores it. -/
theorem put_stores (s : Sizes K V) {t : Table K V} (cur : Cursor K V) (hok : t.Ok)
    (hdup : t.dupSort = true) {flags : Flags} (hreserve : flags.reserve = false) {key : K} {ins : Bool} {d : V}
    (hready : Ready t flags.rest key ins) (hfits : Fits flags (t.valuesAt key) d) :
    Stores t key d (cursorPut s t cur flags.rest key (.value d)).table := by
  have hnot : ¬ flags.rest.reserve = true := fun hc => Bool.false_ne_true (hreserve.symm.trans hc)
  rw [cursorPut_eq rfl]
  cases hready with
  | absent hnone hplace =>
    have hseek : putSeek t flags.rest key (.value d) = .go t true := by
      unfold putSeek
      cases hplace with
      | inl hnil => exact if_pos hnil
      | inr habsent =>
        rw [habsent]
        split_ifs
        · rfl
        · rfl
    have hnone' : (newRoot s t (.value d)).get? key = none := by
      unfold Table.get?
      rw [newRoot_nodes]
      exact hnone
    have hstores := insertNode_stores s (newRoot_ok hok (.value d)) flags.rest d hnone'
    rw [hseek]
    refine ⟨hstores.ok, hstores.dupSort.trans (newRoot_dupSort s t _), ?_⟩
    have hcontent := hstores.content
    unfold Table.valuesAt at hcontent
    rw [content_newRoot] at hcontent
    exact hcontent
  | found hsome hplace =>
    have ⟨n, hget⟩ := Option.ne_none_iff_exists'.mp hsome
    have hnil : t.nodes ≠ [] := by
      intro hc
      unfold Table.get? at hsome
      rw [hc] at hsome
      exact hsome rfl
    have hseek : putSeek t flags.rest key (.value d) = putExact t flags.rest key (.value d) := by
      unfold putSeek
      rw [if_neg hnil, hplace]
    rw [valuesAt_of_get? hget] at hfits
    rw [hseek]
    unfold putExact
    rw [hget]
    simp only [Flags.rest, Bool.false_eq_true, if_false]
    by_cases hmem : d ∈ n.values
    · have hsame := stores_same hok hget hmem
      cases n with
      | record v | single v =>
        have heq : d = v := List.mem_singleton.mp hmem
        simp only [heq, and_true, if_pos (show ¬ flags.reserve = true from hnot)]
        rw [← heq]
        exact hsame
      | dups vs =>
        have hin : d ∈ vs := hmem
        simp only [if_neg (show ¬ flags.reserve = true from hnot), if_pos hin]
        exact hsame
    · have hcode := more_fits s hok hdup hget hmem (show Fits flags.rest n.values d from hfits)
      have hstores := (more_stores hok hdup hsome hcode).1
      have hround : ∀ data, (putValues s t flags.rest false false key (.value d)).table =
          (more s (newRoot s t data) flags.rest false key d).1 := by
        intro data
        rw [putValues_value, newRoot_of_some hsome, newRoot_of_some hsome]
        rfl
      have hgo := hround (.value d)
      rw [newRoot_of_some hsome] at hgo
      cases n with
      | record v | single v =>
        have hne : d ≠ v := fun heq => hmem (List.mem_singleton.mpr heq)
        simp only [hne, and_false, if_false]
        exact ⟨hgo ▸ hstores.ok, hgo ▸ hstores.dupSort, hgo ▸ hstores.content⟩
      | dups vs =>
        have hout : d ∉ vs := hmem
        simp only [if_neg (show ¬ flags.reserve = true from hnot), if_neg hout]
        exact ⟨hgo ▸ hstores.ok, hgo ▸ hstores.dupSort, hgo ▸ hstores.content⟩

/-! ## 5. The batch -/

theorem round_stores {s : Sizes K V} {t : Table K V} (hok : t.Ok) (hdup : t.dupSort = true)
    {flags : Flags} {key : K} {ins : Bool} {d : V} (hready : Ready t flags key ins)
    (h : (round s t flags false ins key d).2 = .success) :
    Stores t key d (round s t flags false ins key d).1 ∧ Fits flags (t.valuesAt key) d := by
  cases hready with
  | absent hnone _ =>
    refine ⟨insertNode_stores s hok flags d hnone, fun _ => ?_⟩
    rw [valuesAt_of_none hnone]
    exact Or.inr fun v hv => absurd hv List.not_mem_nil
  | found hsome _ =>
    have hmore : (more s t flags false key d).2 = .success := h
    exact more_stores hok hdup hsome hmore

theorem Stores.ready {t t' : Table K V} (hok : t.Ok) {flags : Flags} {key : K} {ins : Bool} {d : V}
    (hready : Ready t flags key ins) (h : Stores t key d t') : Ready t' flags key false :=
  hready.stored hok h.content

/-- The rounds of a batch store what puts of one value do, up to the one that is refused. -/
theorem rounds_puts {s : Sizes K V} {flags : Flags} (hreserve : flags.reserve = false) {key : K}
    (cur : Cursor K V) {t t' : Table K V} {ins : Bool} {n : Nat} (ds : List V) (hok : t.Ok)
    (hok' : t'.Ok) (hdup : t.dupSort = true) (hdup' : t'.dupSort = true)
    (hsame : t.content = t'.content) (hready : Ready t flags key ins) :
    ∃ stored others, ds = stored ++ others ∧
      (rounds s flags key t ins n ds).count = n + stored.length ∧
      (rounds s flags key t ins n ds).table.content =
        (puts s cur flags.rest key t' stored).content ∧
      ((rounds s flags key t ins n ds).code = .success ↔ others = []) := by
  induction ds generalizing t t' ins n with
  | nil => exact ⟨[], [], rfl, rfl, hsame, iff_of_true rfl rfl⟩
  | cons d ds ih =>
    unfold rounds
    dsimp only
    by_cases hcode : (round s t flags false ins key d).2 = .success
    · rw [if_pos hcode]
      obtain ⟨hround, hfits⟩ := round_stores hok hdup hready hcode
      have hvalues : t.valuesAt key = t'.valuesAt key := by
        unfold Table.valuesAt
        rw [hsame]
      have hready' : Ready t' flags.rest key ins := by
        have hcongr := hready.congr hsame
        cases hcongr with
        | absent hnone hplace => exact .absent hnone hplace
        | found hsome hplace => exact .found hsome hplace
      have hput := put_stores s cur hok' hdup' hreserve hready' (hvalues ▸ hfits)
      have hcontent : (round s t flags false ins key d).1.content =
          (cursorPut s t' cur flags.rest key (.value d)).table.content := by
        rw [hround.content, hput.content, hvalues, hsame]
      obtain ⟨stored, others, hds, hcount, hmore, hsuccess⟩ := ih (n := n + 1) hround.ok hput.ok
        (hround.dupSort.trans hdup) (hput.dupSort.trans hdup') hcontent (hround.ready hok hready)
      refine ⟨d :: stored, others, congrArg (d :: ·) hds, ?_, hmore, hsuccess⟩
      rw [hcount, List.length_cons]
      omega
    · rw [if_neg hcode]
      refine ⟨[], d :: ds, rfl, rfl, ?_, iff_of_false hcode (List.cons_ne_nil d ds)⟩
      rw [round_refused hok hcode]
      exact hsame

/-! ## 6. The flags for the batch -/

/-- `MDBX_ALLDUPS` deletes the duplicates of the key. -/
def dropDups (t : Table K V) (flags : Flags) (key : K) : Table K V :=
  match flags.allDups, t.get? key with
  | true, some (.dups _) => t.erase key
  | _, _ => t

/-- The table without what `MDBX_CURRENT` and `MDBX_ALLDUPS` ask to delete. -/
def cleared (t : Table K V) (cur : Cursor K V) (flags : Flags) (key : K) : Table K V :=
  match flags.current, cur with
  | true, .item k v =>
    match cursorDel t k v flags.allDups with
    | .ok t' => dropDups t' flags key
    | .error _ => t
  | _, _ => dropDups t flags key

/-- What `cursor_put` does before the values. -/
def search (s : Sizes K V) (t : Table K V) (cur : Cursor K V) (flags : Flags) (key : K)
    (data : Data V) : Stage K V :=
  match if flags.current then putCurrent s t cur flags key data else .go t false with
  | .ret t' code => .ret t' code
  | .go t₁ current => if current then .go t₁ false else putSeek t₁ flags key data

theorem dropDups_ok {t : Table K V} (hok : t.Ok) (flags : Flags) (key : K) :
    (dropDups t flags key).Ok ∧ (dropDups t flags key).dupSort = t.dupSort := by
  unfold dropDups
  split
  · exact ⟨hok.erase key, rfl⟩
  · exact ⟨hok, rfl⟩

omit [LinearOrder V] in
theorem dropDups_of_none {t : Table K V} {flags : Flags} {key : K} (h : t.get? key = none) :
    dropDups t flags key = t := by
  unfold dropDups
  rw [h]
  cases flags.allDups with
  | true | false => rfl

-- without its duplicates, the last key leaves keys before it
theorem ready_erase {t : Table K V} (hok : t.Ok) {flags : Flags} {key : K}
    (hplace : place t flags key = .exact) : Ready (t.erase key) flags key true := by
  have hnone : (t.erase key).get? key = none := SortedMap.get?_erase_self hok.sorted key
  refine .absent hnone ?_
  unfold place
  cases happend : flags.append with
  | false =>
    refine Or.inr ?_
    simp only
    rw [hnone]
    exact if_neg Bool.false_ne_true
  | true =>
    have hlast := last_of_exact (found_of_exact hok hplace) hplace happend
    rw [getLast?_keys] at hlast
    have ⟨p, hp, hkey⟩ := Option.map_eq_some_iff.mp hlast
    have ⟨init, hinit⟩ := List.getLast?_eq_some_iff.mp hp
    have hs := hok.sorted
    unfold SortedMap.Sorted at hs
    rw [hinit] at hs
    have hall : ∀ q ∈ init, q.1 < key := fun q hq =>
      hkey ▸ (List.pairwise_append.mp hs).2.2 q hq p List.mem_cons_self
    have hnodes : (t.erase key).nodes = init := by
      show SortedMap.erase key t.nodes = init
      rw [hinit, ← hkey]
      exact SortedMap.erase_last (fun q hq => hkey ▸ hall q hq) p.2
    rw [hnodes]
    cases hget : init.getLast? with
    | none => exact Or.inl (List.getLast?_eq_none_iff.mp hget)
    | some q =>
      refine Or.inr ?_
      simp only
      rw [if_pos (hall q (List.mem_of_getLast? hget))]

theorem putSeek_multiple {t t₂ : Table K V} (hok : t.Ok) {flags : Flags} {key : K} {len : Nat}
    {vs : List V} {ins : Bool} (h : putSeek t flags key (.multiple len vs) = .go t₂ ins) :
    t₂ = dropDups t flags key ∧ Ready t₂ flags key ins := by
  obtain ⟨hnone, hplace, hseek⟩ | ⟨-, hseek⟩ | ⟨hplace, hsome, hseek⟩ :=
    putSeek_cases hok flags key (.multiple len vs)
  · rw [hseek] at h
    have ⟨ht, hi⟩ := Stage.go.inj h
    rw [dropDups_of_none hnone, ← ht, ← hi]
    exact ⟨rfl, .absent hnone hplace⟩
  · rw [hseek] at h
    exact nomatch h
  · rw [hseek] at h
    have ⟨n, hget⟩ := Option.ne_none_iff_exists'.mp hsome
    have hready : Ready t flags key false := .found hsome hplace
    have hover : ¬ flags.noOverwrite = true := by
      intro hc
      simp only [putExact, hget, if_pos hc] at h
      exact nomatch h
    simp only [putExact, hget, if_neg hover] at h
    unfold dropDups
    rw [hget]
    cases n with
    | single v | record v =>
      have ⟨ht, hi⟩ := Stage.go.inj h
      rw [← ht, ← hi]
      cases flags.allDups with
      | true | false => exact ⟨rfl, hready⟩
    | dups ws =>
      cases hall : flags.allDups with
      | true =>
        rw [if_pos hall] at h
        have ⟨ht, hi⟩ := Stage.go.inj h
        rw [← ht, ← hi]
        exact ⟨rfl, ready_erase hok hplace⟩
      | false =>
        rw [if_neg (fun hc => Bool.false_ne_true (hall.symm.trans hc))] at h
        have ⟨ht, hi⟩ := Stage.go.inj h
        rw [← ht, ← hi]
        exact ⟨rfl, hready⟩

theorem putSeek_not_success {t t' : Table K V} (hok : t.Ok) {flags : Flags} {key : K} {len : Nat}
    {vs : List V} {code : Code} (h : putSeek t flags key (.multiple len vs) = .ret t' code) :
    code ≠ .success := by
  obtain ⟨-, -, hseek⟩ | ⟨-, hseek⟩ | ⟨-, hsome, hseek⟩ :=
    putSeek_cases hok flags key (.multiple len vs)
  · rw [hseek] at h
    exact nomatch h
  · rw [hseek] at h
    rw [← (Stage.ret.inj h).2]
    exact fun hc => nomatch hc
  · rw [hseek] at h
    have ⟨n, hget⟩ := Option.ne_none_iff_exists'.mp hsome
    by_cases hover : flags.noOverwrite = true
    · simp only [putExact, hget, if_pos hover] at h
      rw [← (Stage.ret.inj h).2]
      exact fun hc => nomatch hc
    · simp only [putExact, hget, if_neg hover] at h
      cases n with
      | single v | record v => exact nomatch h
      | dups ws =>
        simp only at h
        split_ifs at h

-- what is left of the key with `MDBX_ALLDUPS` has no duplicates
theorem dropDups_of_cursorDel {t t' : Table K V} (hok : t.Ok) {flags : Flags} {key : K} {v : V}
    (h : cursorDel t key v flags.allDups = .ok t') : dropDups t' flags key = t' := by
  cases hall : flags.allDups with
  | false =>
    unfold dropDups
    rw [hall]
  | true =>
    refine dropDups_of_none ?_
    rw [hall] at h
    unfold cursorDel at h
    cases hget : t.get? key with
    | none =>
      rw [hget] at h
      exact nomatch h
    | some n =>
      rw [hget] at h
      cases n with
      | record u => exact nomatch h
      | single u | dups vs =>
        rw [← Except.ok.inj h]
        exact SortedMap.get?_erase_self hok.sorted key

theorem cursorDel_not_success {t : Table K V} {k : K} {v : V} {allDups : Bool} {code : Code}
    (h : cursorDel t k v allDups = .error code) : code ≠ .success := by
  unfold cursorDel at h
  split at h
  · rw [← Except.error.inj h]
    exact fun hc => nomatch hc
  · split_ifs at h
  · exact nomatch h
  · rw [← Except.error.inj h]
    exact fun hc => nomatch hc

/-- What `MDBX_CURRENT` does for a batch. -/
theorem putCurrent_multiple (s : Sizes K V) (t : Table K V) (cur : Cursor K V) (flags : Flags) (key : K)
    (len : Nat) (vs : List V) :
    (∃ code, code ≠ .success ∧ putCurrent s t cur flags key (.multiple len vs) = .ret t code) ∨
      ∃ v t', cur = .item key v ∧ cursorDel t key v flags.allDups = .ok t' ∧
        putCurrent s t cur flags key (.multiple len vs) =
          if vs = [] then .ret t' .success else .go t' false := by
  unfold putCurrent
  by_cases hflags : flags.append ∨ flags.noOverwrite
  · rw [if_pos hflags]
    exact Or.inl ⟨.einval, by decide, rfl⟩
  · rw [if_neg hflags]
    cases cur with
    | hollow => exact Or.inl ⟨.enodata, by decide, rfl⟩
    | atEnd => exact Or.inl ⟨.notFound, by decide, rfl⟩
    | item k v =>
      dsimp only [Cursor.getCurrent]
      by_cases hkey : key ≠ k
      · rw [if_pos hkey]
        exact Or.inl ⟨.eKeyMismatch, by decide, rfl⟩
      · rw [if_neg hkey, ← not_not.mp hkey]
        unfold updateMultiple
        by_cases hdup : ¬ t.dupSort = true
        · rw [if_pos hdup]
          exact Or.inl ⟨.einval, by decide, rfl⟩
        · rw [if_neg hdup]
          cases hdel : cursorDel t key v flags.allDups with
          | error code => exact Or.inl ⟨code, cursorDel_not_success hdel, rfl⟩
          | ok t' => exact Or.inr ⟨v, t', rfl, hdel, rfl⟩

/-- A batch goes to its values in the table without what is deleted first. -/
theorem search_go {s : Sizes K V} {t t₂ : Table K V} {cur : Cursor K V} {flags : Flags} {key : K}
    {len : Nat} {vs : List V} {ins : Bool} (hok : t.Ok)
    (h : search s t cur flags key (.multiple len vs) = .go t₂ ins) :
    t₂ = cleared t cur flags key ∧ t₂.Ok ∧ t₂.dupSort = t.dupSort ∧ Ready t₂ flags key ins := by
  unfold search at h
  unfold cleared
  cases hcurrent : flags.current with
  | false =>
    rw [if_neg (fun hc => Bool.false_ne_true (hcurrent.symm.trans hc))] at h
    have ⟨ht, hready⟩ := putSeek_multiple hok h
    have ⟨hok₂, hdup⟩ := dropDups_ok hok flags key
    rw [← ht] at hok₂ hdup
    exact ⟨ht, hok₂, hdup, hready⟩
  | true =>
    rw [if_pos hcurrent] at h
    cases putCurrent_multiple s t cur flags key len vs with
    | inl hret =>
      have ⟨code, _, hcode⟩ := hret
      rw [hcode] at h
      exact nomatch h
    | inr hdel =>
      have ⟨v, t', hcur, hdel, hgo⟩ := hdel
      rw [hgo] at h
      split_ifs at h with hnil
      have ⟨hok', hdup'⟩ := cursorDel_ok hok hdel
      have ⟨ht, hready⟩ := putSeek_multiple hok' h
      have ⟨hok₂, hdup⟩ := dropDups_ok hok' flags key
      rw [← ht] at hok₂ hdup
      simp only [hcur, hdel]
      exact ⟨ht, hok₂, hdup.trans hdup', hready⟩

-- where it ends before, there are no values
theorem search_ret {s : Sizes K V} {t t' : Table K V} {cur : Cursor K V} {flags : Flags} {key : K}
    {len : Nat} {vs : List V} (hok : t.Ok)
    (h : search s t cur flags key (.multiple len vs) = .ret t' .success) :
    vs = [] ∧ t' = cleared t cur flags key := by
  unfold search at h
  unfold cleared
  cases hcurrent : flags.current with
  | false =>
    rw [if_neg (fun hc => Bool.false_ne_true (hcurrent.symm.trans hc))] at h
    exact absurd rfl (putSeek_not_success hok h)
  | true =>
    rw [if_pos hcurrent] at h
    cases putCurrent_multiple s t cur flags key len vs with
    | inl hret =>
      have ⟨code, hno, hcode⟩ := hret
      rw [hcode] at h
      exact absurd (Stage.ret.inj h).2 hno
    | inr hdel =>
      have ⟨v, t₁, hcur, hdel, hgo⟩ := hdel
      rw [hgo] at h
      by_cases hnil : vs = []
      · rw [if_pos hnil] at h
        simp only [hcur, hdel]
        rw [dropDups_of_cursorDel hok hdel]
        exact ⟨hnil, (Stage.ret.inj h).1.symm⟩
      · rw [if_neg hnil] at h
        exact absurd rfl (putSeek_not_success (cursorDel_ok hok hdel).1 h)

theorem cursorPut_multiple {s : Sizes K V} {t : Table K V} {cur : Cursor K V} {flags : Flags} {key : K}
    {len : Nat} {vs : List V} :
    cursorPut s t cur flags key (.multiple len vs) =
      match search s t cur flags key (.multiple len vs) with
      | .ret t' code => ⟨t', code, vs.length⟩
      | .go t₂ ins => putValues s t₂ flags false ins key (.multiple len vs) := by
  unfold cursorPut search
  cases hcurrent : flags.current with
  | false =>
    simp only [Bool.false_eq_true, if_false]
    rfl
  | true =>
    simp only [if_true]
    cases putCurrent_multiple s t cur flags key len vs with
    | inl hret =>
      obtain ⟨code, hno, hcode⟩ := hret
      rw [hcode]
      rfl
    | inr hdel =>
      obtain ⟨v, t₁, hcur, hdel, hgo⟩ := hdel
      rw [hgo]
      split_ifs
      · rfl
      · rfl

/-! ## 7. The put -/

/-- The values of a batch are stored one by one, up to the one that is refused. -/
theorem putValues_puts {s : Sizes K V} {t : Table K V} (cur : Cursor K V) {flags : Flags} {key : K}
    {len : Nat} {vs : List V} {ins : Bool} (hok : t.Ok) (hdup : t.dupSort = true)
    (hreserve : flags.reserve = false) (hready : Ready t flags key ins) :
    ∃ stored others, vs = stored ++ others ∧
      (putValues s t flags false ins key (.multiple len vs)).count = stored.length ∧
      (putValues s t flags false ins key (.multiple len vs)).table.content =
        (puts s cur flags.rest key t stored).content ∧
      ((putValues s t flags false ins key (.multiple len vs)).code = .success ↔ others = []) := by
  cases vs with
  | nil => exact ⟨[], [], rfl, rfl, rfl, iff_of_true rfl rfl⟩
  | cons v vs =>
    have hsame : (newRoot s t (.multiple len (v :: vs))).content = t.content :=
      content_newRoot s t _
    have ⟨stored, others, hds, hcount, hcontent, hcode⟩ :=
      rounds_puts (s := s) (n := 0) hreserve cur (v :: vs) (newRoot_ok hok (.multiple len (v :: vs))) hok
        ((newRoot_dupSort s t _).trans hdup) hdup hsame (hready.congr hsame.symm)
    exact ⟨stored, others, hds, hcount.trans (Nat.zero_add _), hcontent, hcode⟩

/-- A batch that is stored has the content of its values put one by one; of one that is refused at a
value, the values before are stored, and they are counted. -/
theorem multiple_puts {s : Sizes K V} {t : Table K V} {cur : Cursor K V} {flags : Flags} {key : K}
    {len : Nat} {vs : List V} (hok : t.Ok) (hdup : t.dupSort = true)
    (hreserve : flags.reserve = false)
    (hsearch : (cursorPut s t cur flags key (.multiple len vs)).code = .success ∨
      ∃ t₂ ins, search s t cur flags key (.multiple len vs) = .go t₂ ins) :
    ∃ stored others, vs = stored ++ others ∧
      (cursorPut s t cur flags key (.multiple len vs)).count = stored.length ∧
      (cursorPut s t cur flags key (.multiple len vs)).table.content =
        (puts s cur flags.rest key (cleared t cur flags key) stored).content ∧
      ((cursorPut s t cur flags key (.multiple len vs)).code = .success ↔ others = []) := by
  rw [cursorPut_multiple] at hsearch ⊢
  cases hstage : search s t cur flags key (.multiple len vs) with
  | ret t' code =>
    rw [hstage] at hsearch
    cases hsearch with
    | inr hgo =>
      have ⟨t₂, ins, hgo⟩ := hgo
      exact nomatch hgo
    | inl hcode =>
      have hcode' : code = .success := hcode
      rw [hcode'] at hstage
      have ⟨hnil, ht⟩ := search_ret hok hstage
      rw [hnil]
      exact ⟨[], [], rfl, rfl, congrArg Table.content ht, iff_of_true hcode' rfl⟩
  | go t₂ ins =>
    have ⟨ht, hok₂, hdup₂, hready⟩ := search_go hok hstage
    rw [← ht]
    exact putValues_puts cur hok₂ (hdup₂.trans hdup) hreserve hready

end Mdbx.Put
