import LeafDb.Base.Run
import LeafDb.TreeRoom
import LeafDb.TreeRun

/-!
# Which operations return

A run of operations from an empty leaf leaves a stored tree whose nodes can be written and whose internal
nodes have separators (`SoundTree`). On such a tree the operations do what their functions on values do, so
when one of them raises is a question about the tree alone.
-/

namespace LeafDb

variable {ν : Type} [TreeLink ν] {h : Nat} {s s' : Store ν} {root : Nat} {key : Int} {value : Bytes} {t : Tree}

/-! ### Runs -/

inductive TreeOp
  | insert (key : Int) (value : Bytes)
  | upsert (key : Int) (value : Bytes)
  | delete (key : Int)

namespace TreeOp

/-- The operation on the tree at `root`; its value is the new root. -/
def exec (fuel root : Nat) : TreeOp → EStateM Failure (Store ν) Nat
  | insert key value => (BTree.insert fuel root key value).run
  | upsert key value => BTree.upsert fuel root key value
  | delete key => (do return (← BTree.delete fuel root key).1 : TreeM ν Nat).run

/-- The pages and the root after an operation that returns. -/
def step (s : Store ν × Nat) (op : TreeOp) : Option (Store ν × Nat) :=
  match op.exec s.1.numPages s.2 s.1 with
  | .ok r s' => some (s', r)
  | .error _ _ => none

/-- Keys of 64 bits and values that are not too long. -/
def Legal : TreeOp → Prop
  | insert key value => IsI64 key ∧ value.length ≤ maxValueSize
  | upsert key value => IsI64 key ∧ value.length ≤ maxValueSize
  | delete key => IsI64 key

end TreeOp

/-- An empty leaf on the page `root`. -/
def Start (s : Store ν) (root : Nat) : Prop :=
  s.stale = [] ∧ (0 < root ∧ root < s.numPages) ∧ s.nodes root = .ok (.leaf [] (TreeLink.ofCode noPage))

/-- A run of legal operations that all return. -/
abbrev TreeRuns (s : Store ν × Nat) (ops : List TreeOp) (s' : Store ν × Nat) : Prop :=
  Run TreeOp.step (fun _ op => op.Legal) s ops s'

/-- The tree `t` is stored at `root`, as runs leave it. -/
structure SoundTree (s : Store ν) (root : Nat) (t : Tree) : Prop where
  tree : TreeAt s t
  root : t.root = root
  stale : s.stale = []
  legal : t.Legal
  keyed : t.2.Keyed

theorem Start.sound (hs : Start s root) : SoundTree s root ⟨0, PT.leaf root [] noPage⟩ := by
  obtain ⟨hst, hr, hn⟩ := hs
  refine ⟨⟨good_leaf .nil (by simp) (by simp) hn hr, rfl⟩, rfl, hst, ?_, trivial⟩
  exact PT.fits_leaf.2 ⟨⟨by decide, by simp⟩, by decide⟩

/-! ### Separators in every internal node -/

theorem Tree.collapse_keyed {t : PT h} (hl : t.Legal) (hk : t.KeyedBelow) : (Tree.collapse t).2.Keyed := by
  rcases h with _ | h
  · trivial
  obtain ⟨p, keys, kids, rfl⟩ := PT.exists_branch t
  have hlen := hl.legalKids.1.length_eq
  rcases keys with _ | ⟨k, keys⟩
  swap
  · exact ⟨List.cons_ne_nil k keys, hk⟩
  obtain ⟨c, rfl⟩ : ∃ c, kids = [c] := List.length_eq_one_iff.1 hlen
  have hc : c.Keyed := hk c (List.mem_singleton.2 rfl)
  -- the child has a separator and stays
  have hstop : Tree.collapse c = ⟨h, c⟩ := by
    rcases h with _ | h
    · rfl
    · obtain ⟨q, ks, cs, rfl⟩ := PT.exists_branch c
      rcases ks with _ | ⟨k, ks⟩
      · exact absurd rfl hc.1
      · rfl
  change (Tree.collapse c).2.Keyed
  rw [hstop]
  exact hc

theorem Tree.erase_keyed {r : Tree × Bool} (hl : t.Legal) (hk : t.2.Keyed) (hr : t.erase key = .ok r) : r.1.2.Keyed := by
  obtain ⟨⟨t', found⟩, hr', hr⟩ := bind_eq_ok.1 hr
  obtain ⟨hbelow, hkeyed⟩ := PT.erase_keyed hl hk hr'
  have hl' := (PT.erase_legal hl hr').1
  obtain rfl := Except.ok.inj hr
  rcases found with _ | _
  · exact hkeyed.resolve_right Bool.false_ne_true
  · exact collapse_keyed hl' hbelow

theorem PT.replace_keyed : {h : Nat} → {t : PT h} → t.Keyed → (t.replace key value).Keyed
  | 0, _, _ => trivial
  | h + 1, t, hk => by
    obtain ⟨p, keys, kids, rfl⟩ := PT.exists_branch t
    obtain ⟨hne, hkids⟩ := PT.keyed_branch.1 hk
    refine ⟨hne, fun c hc => ?_⟩
    obtain ⟨i, hi⟩ := List.mem_iff_getElem?.1 hc
    change (kids.modify (bisectRight keys key) (PT.replace key value))[i]? = some c at hi
    rw [List.getElem?_modify] at hi
    obtain ⟨d, hd, rfl⟩ := Option.map_eq_some_iff.1 hi
    have hdk := hkids d (List.mem_of_getElem? hd)
    split
    · exact replace_keyed hdk
    · exact hdk

theorem Good.present_iff : {h : Nat} → {s : Store ν} → {lo hi : Option Int} → {t : PT h} → Good False s lo hi [] [t] →
    (t.present key = true ↔ ∃ v, (key, v) ∈ PT.cellsL [t])
  | 0, s, lo, hi, t, g => by
    obtain ⟨p, cells, l, rfl⟩ := PT.exists_leaf t
    obtain ⟨ha, -⟩ := g.of_leaf
    obtain ⟨L, R, rfl, hi', hL, hR⟩ := exists_around ha key
    change PT.hasKey (L ++ R) key = true ↔ _
    rw [PT.hasKey_append hi', PT.cellsL_leaf]
    have hnL : ∀ v, (key, v) ∉ L := fun v hv => lt_irrefl _ (hL _ hv)
    rcases hR with ⟨w, R', rfl, hR'⟩ | hR
    · exact ⟨fun _ => ⟨w, by simp⟩, fun _ => by simp⟩
    · have hnR : ∀ v, (key, v) ∉ R := fun v hv => lt_irrefl _ (hR _ hv)
      rcases R with _ | ⟨c, R⟩
      · simp [hnL]
      · have := hR c (by simp)
        simp only [List.head?_cons, Option.any_some, decide_eq_true_eq, List.mem_append, this.ne', hnL, hnR, or_self,
          exists_false]
  | h + 1, s, lo, hi, t, g => by
    obtain ⟨p, keys, kids, rfl⟩ := PT.exists_branch t
    obtain ⟨gk, -⟩ := g.of_branch
    obtain ⟨ka, kb, ca, c, cb, hkeys, hkids, hla, hlb, hbis, hka, hkb, hca, hcb⟩ := gk.child key
    have hc : kids[bisectRight keys key]? = some c := by simp [hkids, hbis, hla]
    rw [PT.present_branch hc]
    rw [hkeys, hkids] at gk
    refine ((gk.segment hla hlb).1.present_iff).trans (exists_congr fun v => ?_)
    rw [PT.cellsL_branch, hkids, key_mem_child hca hcb]

/-! ### One operation on a sound tree -/

section Step

theorem SoundTree.insertable (hs : SoundTree s root t) (hk : IsI64 key) (hv : value.length ≤ maxValueSize) :
    Insertable t.2 key value :=
  ⟨hs.legal, hk, hv⟩

theorem SoundTree.absent (hs : SoundTree s root t) (hno : ∀ v, (key, v) ∉ t.cells) : t.2.present key = false := by
  rw [← Bool.not_eq_true, hs.tree.good.present_iff]
  rintro ⟨v, hv⟩
  exact hno v hv

/-- What insertion makes of the tree, and when it can be written. -/
theorem SoundTree.exists_put (hs : SoundTree s root t) (hk : IsI64 key) (hv : value.length ≤ maxValueSize)
    (hno : ∀ v, (key, v) ∉ t.cells) :
    ∃ r, t.put key value s.numPages = .ok r ∧ r.1.2.Keyed ∧
      (r.1.Legal ↔ t.2.Room key value ∧ (t.2.splits key value = 0 ∨ s.numPages + t.2.splits key value ≤ 2 ^ 32)) := by
  obtain ⟨h, t⟩ := t
  obtain ⟨g, hg, hpages, hkeyed, hshape, hlegal⟩ :=
    PT.grows (n := s.numPages) (hs.insertable hk hv) hs.keyed (hs.absent hno)
  have hbind : ∀ {r}, (∀ f : PT.Grown h → Except PyError (Tree × Nat), f g = .ok r → (t.put key value s.numPages >>= f) = .ok r) :=
    fun f hf => by rw [hg]; exact hf
  obtain ⟨ts, m⟩ := g
  rcases hshape with ⟨⟨a, rfl, -⟩, -⟩ | ⟨⟨k, a, b, rfl, hpa, -⟩, hsc⟩
  · refine ⟨(⟨h, a⟩, m), hbind _ rfl, hkeyed a (by simp), ?_⟩
    rw [← hlegal]
    simp [Tree.Legal]
  · have hkk : IsI64 k := PT.put_seps hs.legal hk hg k (by simp)
    refine ⟨(⟨h + 1, PT.branch m [k] [a, b]⟩, m + 1), hbind _ rfl, ⟨List.cons_ne_nil k [], hkeyed⟩, ?_⟩
    rw [← hlegal]
    have hroot : t.page < s.numPages := (hs.tree.good.range _ (Tree.root_mem_pages ⟨h, t⟩)).2
    constructor
    · intro hl
      obtain ⟨hk', -⟩ := hl.legalKids
      exact ⟨hk'.legal, fun d hd => hk'.pages d (List.mem_of_mem_tail hd)⟩
    · intro hl
      obtain ⟨-, hn⟩ := hlegal.1 hl
      have hn' := hn.resolve_left (by omega)
      have ha : a.page < 2 ^ 32 := hpa.trans_lt (show t.page < 2 ^ 32 by omega)
      refine PT.LegalKids.branch ⟨rfl, by simpa using hkk, hl.1, fun d hd => ?_⟩ (show 1 ≤ 340 by decide)
      rcases List.mem_cons.1 hd with rfl | hd
      · exact ha
      · exact hl.2 d hd

/-- Insertion of a new key returns if and only if its leaf has room and the new pages have numbers. -/
theorem SoundTree.insert_returns (hs : SoundTree s root t) (hk : IsI64 key) (hv : value.length ≤ maxValueSize)
    (hno : ∀ v, (key, v) ∉ t.cells) :
    (∃ r s', (BTree.insert s.numPages root key value).run s = .ok r s') ↔
      t.2.Room key value ∧ (t.2.splits key value = 0 ∨ s.numPages + t.2.splits key value ≤ 2 ^ 32) := by
  obtain ⟨r, hput, -, hlegal⟩ := hs.exists_put hk hv hno
  have hdoes := does_insert_tree hs.tree hs.stale key value
  rw [hs.root] at hdoes
  rw [← hlegal]
  rcases hrun : (BTree.insert s.numPages root key value).run s with ⟨r', s'⟩ | ⟨e, s'⟩
  · obtain ⟨t', -, -, -, -, ht'⟩ := hdoes.of_ok hrun
    obtain ⟨hput', hl'⟩ := ht' (hs.insertable hk hv)
    obtain rfl := Except.ok.inj (hput.symm.trans hput')
    exact ⟨fun _ => hl', fun _ => ⟨_, _, rfl⟩⟩
  · have href := (hdoes.of_error hrun).2 (hs.insertable hk hv) r hput
    exact ⟨nofun, fun hl => absurd hl href⟩

/-- An insertion that returns leaves a sound tree. -/
theorem SoundTree.insert (hs : SoundTree s root t) (hk : IsI64 key) (hv : value.length ≤ maxValueSize) {r : Nat}
    (hrun : (BTree.insert s.numPages root key value).run s = .ok r s') :
    ∃ t', SoundTree s' r t' ∧ t.put key value s.numPages = .ok (t', s'.numPages) ∧ Adds key value t.cells t'.cells := by
  have hdoes := does_insert_tree hs.tree hs.stale key value
  rw [hs.root] at hdoes
  obtain ⟨t', hroot, hb, hadds, -, ht'⟩ := hdoes.of_ok hrun
  obtain ⟨hput, hl⟩ := ht' (hs.insertable hk hv)
  obtain ⟨r', hput', hkeyed, -⟩ := hs.exists_put hk hv hadds.1
  obtain rfl := Except.ok.inj (hput.symm.trans hput')
  exact ⟨t', ⟨hb.tree, hroot, hb.stale, hl, hkeyed⟩, hput, hadds⟩

/-- Overwriting returns if and only if the leaf with the new value can be written. -/
theorem SoundTree.upsert_returns (hs : SoundTree s root t) (hv : value.length ≤ maxValueSize) (hkey : ∃ v, (key, v) ∈ t.cells) :
    (∃ r s', BTree.upsert s.numPages root key value s = .ok r s') ↔ (t.replace key value).Legal := by
  have hdoes := does_upsert_present hs.tree hs.stale hkey hv
  rw [hs.root] at hdoes
  rcases hrun : BTree.upsert s.numPages root key value s with ⟨r', s'⟩ | ⟨e, s'⟩
  · exact ⟨fun _ => (hdoes.of_ok hrun).2.2.2.2 hs.legal, fun _ => ⟨_, _, rfl⟩⟩
  · exact ⟨nofun, fun hl => absurd hl ((hdoes.of_error hrun).2 hs.legal)⟩

/-- An overwriting that returns leaves a sound tree. -/
theorem SoundTree.upsert (hs : SoundTree s root t) (hv : value.length ≤ maxValueSize) (hkey : ∃ v, (key, v) ∈ t.cells) {r : Nat}
    (hrun : BTree.upsert s.numPages root key value s = .ok r s') :
    SoundTree s' r (t.replace key value) ∧ (t.replace key value).cells = setValue key value t.cells := by
  have hdoes := does_upsert_present hs.tree hs.stale hkey hv
  rw [hs.root] at hdoes
  obtain ⟨rfl, hroot, hb, -, hl⟩ := hdoes.of_ok hrun
  exact ⟨⟨hb.tree, hroot, hb.stale, hl hs.legal, PT.replace_keyed hs.keyed⟩, hb.cells⟩

/-- Deletion returns if and only if no leaf starves. -/
theorem SoundTree.delete_returns (hs : SoundTree s root t) :
    (∃ r s', (BTree.delete s.numPages root key).run s = .ok r s') ↔ ¬t.2.Starves key := by
  have hfails : Fails (t.erase key) ↔ t.2.Starves key := by
    rw [← PT.erase_fails_iff hs.legal hs.keyed, Tree.erase]
    exact fails_bind_pure
  have hdoes := does_delete_tree hs.tree hs.stale key
  rw [hs.root] at hdoes
  rw [← hfails]
  rcases hrun : (BTree.delete s.numPages root key).run s with ⟨r, s'⟩ | ⟨e, s'⟩
  · obtain ⟨t', -, -, -, ht'⟩ := hdoes.of_ok hrun
    exact ⟨fun _ => PT.not_fails ⟨_, ht' hs.legal⟩, fun _ => ⟨_, _, rfl⟩⟩
  · refine ⟨?_, fun hn => absurd ((hdoes.of_error hrun).2 hs.legal) hn⟩
    rintro ⟨r, s'', hr⟩
    cases hr

/-- A deletion that returns leaves a sound tree. -/
theorem SoundTree.delete (hs : SoundTree s root t) {r : Nat × Bool} (hrun : (BTree.delete s.numPages root key).run s = .ok r s') :
    ∃ t', SoundTree s' r.1 t' ∧ t.erase key = .ok (t', r.2) ∧ t'.cells = t.cells.filter (fun c => decide (c.1 ≠ key)) ∧
      (r.2 = true ↔ ∃ v, (key, v) ∈ t.cells) := by
  have hdoes := does_delete_tree hs.tree hs.stale key
  rw [hs.root] at hdoes
  obtain ⟨t', hroot, hb, hfound, ht'⟩ := hdoes.of_ok hrun
  have herase := ht' hs.legal
  exact ⟨t', ⟨hb.tree, hroot, hb.stale, Tree.erase_legal hs.legal herase, Tree.erase_keyed hs.legal hs.keyed herase⟩, herase,
    hb.cells, hfound⟩

/-- What an operation makes of the tree; `n` is the next new page. -/
def TreeOp.Makes (n : Nat) (t t' : Tree) : TreeOp → Prop
  | insert key value => Adds key value t.cells t'.cells ∧ ∃ m, t.put key value n = .ok (t', m)
  | upsert key value => (t.2.present key = true ∧ t' = t.replace key value ∧ t'.cells = setValue key value t.cells) ∨
      t.2.present key = false ∧ Adds key value t.cells t'.cells ∧ ∃ m, t.put key value n = .ok (t', m)
  | delete key => t'.cells = t.cells.filter (fun c => decide (c.1 ≠ key)) ∧ ∃ found, t.erase key = .ok (t', found)

/-- Every operation that returns leaves a sound tree. -/
theorem SoundTree.step_makes {op : TreeOp} (hs : SoundTree s root t) (hop : op.Legal) {s' : Store ν × Nat}
    (hstep : op.step (s, root) = some s') : ∃ t', SoundTree s'.1 s'.2 t' ∧ op.Makes s.numPages t t' := by
  rw [TreeOp.step] at hstep
  split at hstep
  swap
  · cases hstep
  rename_i r s' hrun
  obtain rfl := Option.some.inj hstep
  rcases op with ⟨key, value⟩ | ⟨key, value⟩ | key
  · obtain ⟨t', ht', hput, hadds⟩ := hs.insert hop.1 hop.2 hrun
    exact ⟨t', ht', hadds, _, hput⟩
  · by_cases hkey : ∃ v, (key, v) ∈ t.cells
    · obtain ⟨ht', hcells⟩ := hs.upsert hop.2 hkey hrun
      exact ⟨_, ht', .inl ⟨hs.tree.good.present_iff.2 hkey, rfl, hcells⟩⟩
    · have hno : ∀ v, (key, v) ∉ t.cells := fun v hv => hkey ⟨v, hv⟩
      have habs := upsert_of_absent hs.tree hs.stale value hno
      rw [hs.root] at habs
      obtain ⟨t', ht', hput, hadds⟩ := hs.insert hop.1 hop.2 (habs.symm.trans hrun)
      exact ⟨t', ht', .inr ⟨hs.absent hno, hadds, _, hput⟩⟩
  · rw [TreeOp.exec, TreeM.run_bind] at hrun
    obtain ⟨r', s'', hrun', hr⟩ := Exec.bind_eq_ok.1 hrun
    cases hr
    obtain ⟨t', ht', herase, hcells, -⟩ := hs.delete hrun'
    exact ⟨t', ht', hcells, _, herase⟩

end Step

/-- Runs leave sound trees. -/
theorem TreeRuns.sound {s₀ : Store ν} {root₀ : Nat} {ops : List TreeOp} (hstart : Start s₀ root₀)
    (hrun : TreeRuns (s₀, root₀) ops (s, root)) : ∃ t, SoundTree s root t :=
  Run.invariant (P := fun s => ∃ t, SoundTree s.1 s.2 t)
    (fun _ _ _ ⟨_, hs⟩ hop hstep => (hs.step_makes hop hstep).imp fun _ h => h.1) hrun ⟨_, hstart.sound⟩

end LeafDb
