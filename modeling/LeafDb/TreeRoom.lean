import LeafDb.TreeBalance

/-!
# When insertion fails

A leaf is split at the middle of its cells, though its room is in bytes, so a half may be too long for a page
(`Room`). An internal node that is split always has room. The other limit is the number of pages (`splits`).
-/

namespace LeafDb

variable {h : Nat} {key : Int} {value : Bytes} {n : Nat}

namespace PT

/-- Whether the leaf where the key belongs has it. -/
def present (key : Int) : {h : Nat} → PT h → Bool
  | 0, t => hasKey (PLeaf.cells t) key
  | _ + 1, t =>
    match (PNode.kids t)[bisectRight (PNode.keys t) key]? with
    | some c => present key c
    | none => false

theorem present_branch {p : Nat} {keys : List Int} {kids : List (PT h)} {c : PT h} (hc : kids[bisectRight keys key]? = some c) :
    (branch p keys kids).present key = c.present key := by
  change (match kids[bisectRight keys key]? with
    | some c => present key c
    | none => false) = _
  rw [hc]

/-- The cells of a leaf with a new one. -/
def cellsWith (key : Int) (value : Bytes) (cells : List Cell) : List Cell :=
  cells.insertIdx (bisectLeft (cells.map Prod.fst) key) (key, value)

/-- The leaf where the key belongs fits its page with the new cell, or both halves of it do. -/
def Room (key : Int) (value : Bytes) : {h : Nat} → PT h → Prop
  | 0, t =>
    let cells := cellsWith key value (PLeaf.cells t)
    9 + cellsSize cells ≤ pageSize ∨
      9 + cellsSize (cells.take (cells.length / 2)) ≤ pageSize ∧ 9 + cellsSize (cells.drop (cells.length / 2)) ≤ pageSize
  | _ + 1, t => ∃ c, (PNode.kids t)[bisectRight (PNode.keys t) key]? = some c ∧ Room key value c

/-- How many nodes insertion splits, from the leaf up. -/
def splits (key : Int) (value : Bytes) : {h : Nat} → PT h → Nat
  | 0, t => if 9 + cellsSize (cellsWith key value (PLeaf.cells t)) ≤ pageSize then 0 else 1
  | h + 1, t =>
    match (PNode.kids t)[bisectRight (PNode.keys t) key]? with
    | some c =>
      let k := splits key value c
      if k = h + 1 ∧ ¬9 + 8 * ((PNode.keys t).length + 1) + 4 * ((PNode.kids t).length + 1) ≤ pageSize then k + 1 else k
    | none => 0

/-- What insertion makes of a tree that does not have the key. -/
structure Grows (t : PT h) (key : Int) (value : Bytes) (n : Nat) (g : Grown h) : Prop where
  pages : g.2 = n + t.splits key value
  keyed : ∀ d ∈ g.1.2, d.Keyed
  shape : ((∃ a, g.1 = ([], [a]) ∧ a.page = t.page) ∧ t.splits key value ≤ h) ∨
    (∃ k a b, g.1 = ([k], [a, b]) ∧ a.page = t.page ∧ b.page + 1 = g.2) ∧ t.splits key value = h + 1
  legal : ((∀ d ∈ g.1.2, d.Legal) ∧ ∀ b ∈ g.1.2.tail, b.page < 2 ^ 32) ↔
    t.Room key value ∧ (t.splits key value = 0 ∨ n + t.splits key value ≤ 2 ^ 32)

theorem cellsSize_insertIdx_le (cells : List Cell) (i : Nat) (c : Cell) :
    cellsSize (cells.insertIdx i c) ≤ cellsSize cells + (12 + c.2.length) := by
  induction cells generalizing i with
  | nil => rcases i with _ | i <;> simp
  | cons d cells ih =>
    rcases i with _ | i
    · simp only [List.insertIdx_zero, cellsSize_cons]
      omega
    · have := ih i
      simp only [List.insertIdx_succ_cons, cellsSize_cons]
      omega

theorem grows_leaf {p l : Nat} {cells : List Cell} (hi : Insertable (leaf p cells l) key value)
    (hno : (leaf p cells l).present key = false) :
    ∃ g, put key value (leaf p cells l) n = .ok g ∧ Grows (leaf p cells l) key value n g := by
  obtain ⟨hl, hk, hv⟩ := hi
  obtain ⟨⟨hlink, hc⟩, hs⟩ := fits_leaf.1 hl
  have hno' : ¬hasKey cells key = true := by
    intro h
    exact Bool.false_ne_true (hno.symm.trans h)
  have hcells : ∀ c ∈ cellsWith key value cells, IsI64 c.1 ∧ c.2.length ≤ maxValueSize := by
    intro c hcm
    rcases List.eq_or_mem_of_mem_insertIdx hcm with rfl | hcm
    · exact ⟨hk, hv⟩
    · exact hc c hcm
  have hsplits : (leaf p cells l).splits key value = if 9 + cellsSize (cellsWith key value cells) ≤ pageSize then 0 else 1 := rfl
  have hroom : (leaf p cells l).Room key value ↔ 9 + cellsSize (cellsWith key value cells) ≤ pageSize ∨
      9 + cellsSize ((cellsWith key value cells).take ((cellsWith key value cells).length / 2)) ≤ pageSize ∧
      9 + cellsSize ((cellsWith key value cells).drop ((cellsWith key value cells).length / 2)) ≤ pageSize := Iff.rfl
  have hput : put key value (leaf p cells l) n = putLeaf p (cellsWith key value cells) l n := by
    rw [put_leaf, if_neg hno']
    rfl
  have hbig : 9 + cellsSize (cellsWith key value cells) ≤ pageSize ∨ 2 ≤ (cellsWith key value cells).length := by
    have hsize : cellsSize (cellsWith key value cells) ≤ cellsSize cells + (12 + value.length) := cellsSize_insertIdx_le _ _ _
    have hlen : (cellsWith key value cells).length = cells.length + 1 :=
      List.length_insertIdx_of_le_length (by simpa using bisectLeft_le (cells.map Prod.fst) key) _
    rcases cells with _ | ⟨c, cells⟩
    · refine .inl ?_
      rw [maxValueSize, pageSize] at hv
      rw [pageSize]
      rw [cellsSize_nil] at hsize
      omega
    · refine .inr ?_
      rw [hlen]
      simp
  generalize cellsWith key value cells = cs at *
  rw [hput]
  by_cases hle : 9 + cellsSize cs ≤ pageSize
  · rw [if_pos hle] at hsplits
    refine ⟨(([], [leaf p cs l]), n), by rw [putLeaf, if_pos hle], ?_⟩
    refine ⟨by rw [hsplits, Nat.add_zero], by simp, .inl ⟨⟨_, rfl, rfl⟩, hsplits.le⟩, ?_⟩
    rw [hroom, hsplits]
    simp only [List.mem_singleton, forall_eq, List.tail_cons, List.not_mem_nil, IsEmpty.forall_iff, implies_true, and_true]
    exact ⟨fun _ => ⟨.inl hle, .inl trivial⟩, fun _ => ⟨⟨hlink, hcells⟩, hle⟩⟩
  · have h2 := hbig.resolve_left hle
    rw [if_neg hle] at hsplits
    have hlt : cs.length / 2 < cs.length := by omega
    have hmid : ¬cs.length / 2 = 0 := by omega
    have hhead : (cs.drop (cs.length / 2)).head? = some cs[cs.length / 2] := by
      rw [List.head?_drop, List.getElem?_eq_getElem hlt]
    refine ⟨(([cs[cs.length / 2].1], [leaf p (cs.take (cs.length / 2)) n, leaf n (cs.drop (cs.length / 2)) l]), n + 1), ?_, ?_⟩
    · rw [putLeaf, if_neg hle]
      simp only [hmid, if_false, hhead]
    refine ⟨by rw [hsplits], by simp, .inr ⟨⟨_, _, _, rfl, rfl, rfl⟩, hsplits⟩, ?_⟩
    rw [hroom, hsplits]
    simp only [List.mem_cons, List.not_mem_nil, or_false, forall_eq_or_imp, forall_eq, List.tail_cons, page_leaf, legal_leaf,
      fits_leaf]
    constructor
    · rintro ⟨⟨⟨⟨hn, -⟩, h1⟩, -, h2⟩, -⟩
      exact ⟨.inr ⟨h1, h2⟩, .inr hn⟩
    · rintro ⟨hroom, hn⟩
      obtain ⟨h1, h2⟩ := hroom.resolve_left hle
      have hn' : n < 2 ^ 32 := by
        rcases hn with hn | hn
        · cases hn
        · omega
      exact ⟨⟨⟨⟨hn', fun c hcm => hcells c (List.mem_of_mem_take hcm)⟩, h1⟩,
        ⟨hlink, fun c hcm => hcells c (List.mem_of_mem_drop hcm)⟩, h2⟩, hn'⟩

theorem putBranch_ok {p : Nat} {keys : List Int} {kids : List (PT h)} (hlen : kids.length = keys.length + 1)
    (hle : ¬9 + 8 * keys.length + 4 * kids.length ≤ pageSize) :
    ∃ sep, putBranch p keys kids n = .ok (([sep], [branch p (keys.take (keys.length / 2)) (kids.take (keys.length / 2 + 1)),
      branch n (keys.drop (keys.length / 2 + 1)) (kids.drop (keys.length / 2 + 1))]), n + 1) := by
  rw [pageSize] at hle
  have hlt : keys.length / 2 < keys.length := by omega
  have hmid : ¬keys.length / 2 = 0 := by omega
  refine ⟨keys[keys.length / 2], ?_⟩
  rw [putBranch, pageSize, if_neg hle]
  simp only [hmid, if_false, List.getElem?_eq_getElem hlt]

/-- A child that became two. -/
theorem LegalKids.insert {keys : List Int} {kids : List (PT h)} {i : Nat} {a b c : PT h} {k : Int} (hk : LegalKids keys kids)
    (hc : kids[i]? = some c) (ha : a.Legal) (hb : b.Legal) (hpa : a.page = c.page) (hpb : b.page < 2 ^ 32) (hkk : IsI64 k) :
    LegalKids (keys.take i ++ [k] ++ keys.drop i) (kids.take i ++ [a, b] ++ kids.drop (i + 1)) := by
  have hlt := (List.getElem?_eq_some_iff.1 hc).1
  have hlen := hk.length_eq
  refine ⟨?_, fun u hu => ?_, fun d hd => ?_, fun d hd => ?_⟩
  · simp only [List.length_append, List.length_take, List.length_drop, List.length_cons, List.length_nil]
    omega
  · simp only [List.mem_append, List.mem_singleton] at hu
    rcases hu with (hu | rfl) | hu
    · exact hk.keys u (List.mem_of_mem_take hu)
    · exact hkk
    · exact hk.keys u (List.mem_of_mem_drop hu)
  · simp only [List.mem_append, List.mem_cons, List.not_mem_nil, or_false] at hd
    rcases hd with (hd | rfl | rfl) | hd
    · exact hk.legal d (List.mem_of_mem_take hd)
    · exact ha
    · exact hb
    · exact hk.legal d (List.mem_of_mem_drop hd)
  · simp only [List.mem_append, List.mem_cons, List.not_mem_nil, or_false] at hd
    rcases hd with (hd | rfl | rfl) | hd
    · exact hk.pages d (List.mem_of_mem_take hd)
    · exact hpa ▸ hk.pages c (List.mem_of_getElem? hc)
    · exact hpb
    · exact hk.pages d (List.mem_of_mem_drop hd)

/-- The halves of a node with at most 341 separators have room. -/
theorem LegalKids.halves {keys : List Int} {kids : List (PT h)} {p q : Nat} (hk : LegalKids keys kids) (hlen : keys.length ≤ 341)
    (hlt : keys.length / 2 < keys.length) :
    (PT.branch p (keys.take (keys.length / 2)) (kids.take (keys.length / 2 + 1))).Legal ∧
      (PT.branch q (keys.drop (keys.length / 2 + 1)) (kids.drop (keys.length / 2 + 1))).Legal := by
  have hl := hk.length_eq
  constructor
  · refine LegalKids.branch ⟨?_, fun u hu => hk.keys u (List.mem_of_mem_take hu), fun d hd => hk.legal d (List.mem_of_mem_take hd),
      fun d hd => hk.pages d (List.mem_of_mem_take hd)⟩ ?_
    · rw [List.length_take, List.length_take]
      omega
    · rw [List.length_take]
      omega
  · refine LegalKids.branch ⟨?_, fun u hu => hk.keys u (List.mem_of_mem_drop hu), fun d hd => hk.legal d (List.mem_of_mem_drop hd),
      fun d hd => hk.pages d (List.mem_of_mem_drop hd)⟩ ?_
    · rw [List.length_drop, List.length_drop]
      omega
    · rw [List.length_drop]
      omega

theorem grows : {h : Nat} → {t : PT h} → Insertable t key value → t.Keyed → t.present key = false →
    ∃ g, put key value t n = .ok g ∧ Grows t key value n g
  | 0, t, hi, _, hno => by
    obtain ⟨p, cells, l, rfl⟩ := exists_leaf t
    exact grows_leaf hi hno
  | h + 1, t, hi, hkd, hno => by
    obtain ⟨p, keys, kids, rfl⟩ := exists_branch t
    obtain ⟨hk, hlen⟩ := hi.legal.legalKids
    obtain ⟨hne, hkids⟩ := keyed_branch.1 hkd
    obtain ⟨c, hc, hcm⟩ := hk.exists_child key
    have hnoc : c.present key = false := (present_branch hc).symm.trans hno
    have hroom : (branch p keys kids).Room key value ↔ c.Room key value := by
      refine ⟨?_, fun hr => ⟨c, hc, hr⟩⟩
      rintro ⟨c', hc', hr⟩
      obtain rfl := Option.some.inj (hc.symm.trans hc')
      exact hr
    have hsplits : (branch p keys kids).splits key value =
        if c.splits key value = h + 1 ∧ ¬9 + 8 * (keys.length + 1) + 4 * (kids.length + 1) ≤ pageSize then
          c.splits key value + 1 else c.splits key value := by
      change (match kids[bisectRight keys key]? with
        | some c =>
          let k := splits key value c
          if k = h + 1 ∧ ¬9 + 8 * (keys.length + 1) + 4 * (kids.length + 1) ≤ pageSize then k + 1 else k
        | none => 0) = _
      rw [hc]
    obtain ⟨g, hg, hpages, hkeyed, hshape, hlegal⟩ :=
      grows ⟨hk.legal c hcm, hi.key, hi.value⟩ (hkids c hcm) hnoc
    have hplace := (List.getElem?_eq_some_iff.1 hc).1
    have hlenk := hk.length_eq
    have hkl := bisectRight_le keys key
    rw [put_branch hc, hg]
    simp only [bind, Except.bind]
    have hmem : ∀ (ds : List (PT h)) (P : PT h → Prop), (∀ d ∈ kids, P d) →
        ((∀ d ∈ kids.take (bisectRight keys key) ++ ds ++ kids.drop (bisectRight keys key + 1), P d) ↔ ∀ d ∈ ds, P d) := by
      intro ds P hP
      refine ⟨fun hd d hdm => hd d (by simp [hdm]), fun hd d hdm => ?_⟩
      simp only [List.mem_append] at hdm
      rcases hdm with (hdm | hdm) | hdm
      · exact hP d (List.mem_of_mem_take hdm)
      · exact hd d hdm
      · exact hP d (List.mem_of_mem_drop hdm)
    rcases hshape with ⟨⟨a, hga, hpa⟩, hsc⟩ | ⟨⟨k, a, b, hga, hpa, hpb⟩, hsc⟩
    · -- the child was not split
      rw [if_neg fun hs => absurd hs.1 (by omega)] at hsplits
      rw [hga] at hkeyed hlegal ⊢
      refine ⟨_, if_pos rfl, ⟨by rw [hsplits]; exact hpages, ?_, .inl ⟨⟨_, rfl, rfl⟩, by rw [hsplits]; omega⟩, ?_⟩⟩
      · simp only [List.mem_singleton, forall_eq, keyed_branch]
        refine ⟨?_, (hmem [a] Keyed hkids).2 hkeyed⟩
        rw [List.append_nil, List.take_append_drop]
        exact hne
      · rw [hroom, hsplits, ← hlegal]
        simp only [List.mem_singleton, forall_eq, List.tail_cons, List.not_mem_nil, IsEmpty.forall_iff, implies_true, and_true]
        refine ⟨fun hl => hl.legalKids.1.legal a (by simp), fun hl => ?_⟩
        have hset := (hk.set hc hl hpa).branch (q := p) hlen
        rw [List.set_eq_take_append_cons_drop, if_pos hplace] at hset
        rw [List.append_nil, List.take_append_drop, List.append_assoc, List.singleton_append]
        exact hset
    · -- the node takes a separator and a child
      have hkk : IsI64 k := by
        have := put_seps (hk.legal c hcm) hi.key hg
        rw [hga] at this
        exact this k (by simp)
      have hlen' : (keys.take (bisectRight keys key) ++ [k] ++ keys.drop (bisectRight keys key)).length = keys.length + 1 := by
        simp only [List.length_append, List.length_take, List.length_drop, List.length_cons, List.length_nil]
        omega
      have hlenk' : (kids.take (bisectRight keys key) ++ [a, b] ++ kids.drop (bisectRight keys key + 1)).length =
          kids.length + 1 := by
        simp only [List.length_append, List.length_take, List.length_drop, List.length_cons, List.length_nil]
        omega
      rw [hga] at hkeyed hlegal ⊢
      have hkeyed' := (hmem [a, b] Keyed hkids).2 hkeyed
      have hins := fun ha hb hpb' => hk.insert (a := a) (b := b) hc ha hb hpa hpb' hkk
      have hlegal' : (a.Legal ∧ b.Legal ∧ b.page < 2 ^ 32) ↔
          c.Room key value ∧ (c.splits key value = 0 ∨ n + c.splits key value ≤ 2 ^ 32) := by
        rw [← hlegal]
        simp [and_assoc]
      have hback : (∀ d ∈ kids.take (bisectRight keys key) ++ [a, b] ++ kids.drop (bisectRight keys key + 1), d.Legal ∧
          d.page < 2 ^ 32) → a.Legal ∧ b.Legal ∧ b.page < 2 ^ 32 := by
        intro hall
        have hb := hall b (by simp)
        exact ⟨(hall a (by simp)).1, hb.1, hb.2⟩
      simp only [List.cons_ne_nil, if_false]
      generalize keys.take (bisectRight keys key) ++ [k] ++ keys.drop (bisectRight keys key) = keys' at *
      generalize kids.take (bisectRight keys key) ++ [a, b] ++ kids.drop (bisectRight keys key + 1) = kids' at *
      by_cases hle : 9 + 8 * keys'.length + 4 * kids'.length ≤ pageSize
      · rw [if_neg fun hs => hs.2 (by rw [← hlen', ← hlenk']; exact hle)] at hsplits
        refine ⟨(([], [branch p keys' kids']), g.2), by rw [putBranch, if_pos hle], by rw [hsplits]; exact hpages, ?_,
          .inl ⟨⟨_, rfl, rfl⟩, by rw [hsplits]; omega⟩, ?_⟩
        · simp only [List.mem_singleton, forall_eq, keyed_branch]
          exact ⟨List.ne_nil_of_length_pos (by omega), hkeyed'⟩
        · rw [hroom, hsplits, ← hlegal']
          simp only [List.mem_singleton, forall_eq, List.tail_cons, List.not_mem_nil, IsEmpty.forall_iff, implies_true, and_true]
          constructor
          · intro hl
            obtain ⟨hk', -⟩ := hl.legalKids
            exact hback fun d hd => ⟨hk'.legal d hd, hk'.pages d hd⟩
          · rintro ⟨ha, hb, hpb'⟩
            have hk' := hins ha hb hpb'
            exact ⟨⟨⟨hk'.keys, hk'.pages⟩, hle⟩, hk'.length_eq, hk'.legal⟩
      · rw [if_pos ⟨hsc, by rw [← hlen', ← hlenk']; exact hle⟩] at hsplits
        obtain ⟨sep, hsep⟩ := putBranch_ok (p := p) (n := g.2) (by omega : kids'.length = keys'.length + 1) hle
        have hbig := hle
        rw [pageSize] at hbig
        have hlt : keys'.length / 2 < keys'.length := by omega
        refine ⟨_, hsep, by rw [hsplits]; omega, ?_, .inr ⟨⟨_, _, _, rfl, rfl, rfl⟩, by rw [hsplits, hsc]⟩, ?_⟩
        · simp only [List.mem_cons, List.not_mem_nil, or_false, forall_eq_or_imp, forall_eq, keyed_branch]
          refine ⟨⟨List.ne_nil_of_length_pos ?_, fun d hd => hkeyed' d (List.mem_of_mem_take hd)⟩,
            List.ne_nil_of_length_pos ?_, fun d hd => hkeyed' d (List.mem_of_mem_drop hd)⟩
          · rw [List.length_take]
            omega
          · rw [List.length_drop]
            omega
        · rw [hroom, hsplits]
          constructor
          · rintro ⟨hl, hpg⟩
            have hall := putBranch_kids hsep hl
            have hpg' : g.2 < 2 ^ 32 := hpg (branch g.2 _ _) (List.mem_singleton.2 rfl)
            exact ⟨(hlegal'.1 (hback hall)).1, .inr (by omega)⟩
          · rintro ⟨hr, hn⟩
            have hn' := hn.resolve_left (by omega)
            obtain ⟨ha, hb, hpb'⟩ := hlegal'.2 ⟨hr, .inr (by omega)⟩
            have hk' := hins ha hb hpb'
            obtain ⟨h1, h2⟩ := hk'.halves (p := p) (q := g.2) (by omega) hlt
            simp only [List.mem_cons, List.not_mem_nil, or_false, forall_eq_or_imp, forall_eq, List.tail_cons, page_branch]
            exact ⟨⟨h1, h2⟩, by omega⟩

end PT

end LeafDb
