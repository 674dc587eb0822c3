import LeafDb.TreeCache
import LeafDb.TreeChain
import LeafDb.TreeFailures
import LeafDb.TreeScan

/-!
# The tree as a map

A `BTree` object over its pager and node cache, called with `insert`, `upsert`, `delete`, `search` and `range_scan`,
against a map from keys to values. The pages are those of a sound tree (`Holds`), so what the pages say of a call is what
the engine does. The two agree in every run in which no insertion splits a leaf when the next page has the number that
ends a chain: the right half would be a leaf that no link names, and a scan would end before it.
-/

namespace LeafDb

namespace PyTree

/-- The calls of a tree. -/
inductive Call
  | insert (key : Int) (value : Bytes)
  | upsert (key : Int) (value : Bytes)
  | delete (key : Int)
  | search (key : Int)
  | rangeScan (lo hi : Option Int)

/-- What the caller of a tree gets: what the call returns, or `DuplicateKey`. -/
inductive Reply
  | done
  | duplicateKey
  | found (b : Bool)
  | value (v : Option Bytes)
  | cells (out : List Cell)

/-- The reply, the tree and the root after a call; `none` when it raises something else than `DuplicateKey`. -/
def reply {α : Type} (root : Nat) (f : α → Reply × Nat) : EStateM.Result PyError PyTree α → Option (Reply × PyTree × Nat)
  | .ok a t => some ((f a).1, t, (f a).2)
  | .error (.duplicateKey _) t => some (.duplicateKey, t, root)
  | .error _ _ => none

/-- A call on the tree at `root`. -/
def call (t : PyTree) (root : Nat) : Call → Option (Reply × PyTree × Nat)
  | .insert key value => reply root (fun r => (.done, r)) (t.insert root key value)
  | .upsert key value => reply root (fun r => (.done, r)) (t.upsert root key value)
  | .delete key => reply root (fun r => (.found r.2, r.1)) ((BTree.delete t.pager.numPages root key).exec t)
  | .search key => reply root (fun v => (.value v, root)) ((BTree.lookup t.pager.numPages root key).exec t)
  | .rangeScan lo hi => reply root (fun out => (.cells out, root)) ((BTree.range t.pager.numPages root lo hi).exec t)

namespace Call

/-- Keys of 64 bits and values that are not too long. -/
def Legal : Call → Prop
  | insert key value | upsert key value => IsI64 key ∧ value.length ≤ maxValueSize
  | _ => True

/-- The reference map after a call. -/
def apply (m : Int → Option Bytes) : Call → Int → Option Bytes
  | insert key value => if (m key).isSome then m else Function.update m key (some value)
  | upsert key value => Function.update m key (some value)
  | delete key => Function.update m key none
  | _ => m

/-- The reply to a call is the one of the reference map. -/
def Answers (m : Int → Option Bytes) : Call → Reply → Prop
  | insert key _, r => r = if (m key).isSome then .duplicateKey else .done
  | upsert _ _, r => r = .done
  | delete key, r => r = .found (m key).isSome
  | search key, r => r = .value (m key)
  | rangeScan lo hi, r => ∃ out, r = .cells out ∧ Ascending out ∧ ∀ k v, (k, v) ∈ out ↔ m k = some v ∧ Within lo hi k

/-- A new key splits its leaf, and the next page has the number that ends a chain. -/
def SplitsLast (t : PyTree) (root : Nat) : Call → Prop
  | insert key value | upsert key value => t.pager.numPages = noPage ∧ ∃ cells, leafOf t.store root key = .ok cells ∧
      key ∉ cells.map Prod.fst ∧ pageSize < 9 + cellsSize (PT.cellsWith key value cells)
  | _ => False

/-- What a call makes of the tree as a value; `n` is the next new page. -/
def Makes (n : Nat) (tr tr' : Tree) : Call → Prop
  | insert key value => tr' = tr ∨ (∀ v, (key, v) ∉ tr.cells) ∧ ∃ m, tr.put key value n = .ok (tr', m)
  | upsert key value => (tr.2.present key = true ∧ tr' = tr.replace key value) ∨
      (∀ v, (key, v) ∉ tr.cells) ∧ ∃ m, tr.put key value n = .ok (tr', m)
  | delete key => ∃ found, tr.erase key = .ok (tr', found)
  | _ => tr' = tr

end Call

/-- A tree with its root and the reference map. -/
abbrev WithMap := (PyTree × Nat) × (Int → Option Bytes)

/-- A call on the tree and on the reference map. -/
def step (s : WithMap) (c : Call) : Option WithMap := (s.1.1.call s.1.2 c).map fun r => (r.2, c.apply s.2)

/-- The tree at `root` shows the map: searches and scans return, and what a call returns is what the map says. -/
structure Refines (t : PyTree) (root : Nat) (m : Int → Option Bytes) : Prop where
  search : ∀ key, ∃ t', t.call root (.search key) = some (.value (m key), t', root)
  scan : ∀ lo hi, ∃ r t', t.call root (.rangeScan lo hi) = some (r, t', root) ∧ (Call.rangeScan lo hi).Answers m r
  answers : ∀ (c : Call) r t' root', c.Legal → t.call root c = some (r, t', root') → c.Answers m r

/-- A tree that is one empty leaf; the node cache agrees with the pages. -/
structure Start (t : PyTree) (root : Nat) : Prop where
  reads : t.Reads t.store
  leaf : LeafDb.Start t.store root

/-! ### The cells as a map -/

/-- The cells are the pairs of the map. -/
def Lists (cells : List Cell) (m : Int → Option Bytes) : Prop := ∀ k v, (k, v) ∈ cells ↔ m k = some v

section Lists

variable {cells cells' : List Cell} {m : Int → Option Bytes} {key : Int} {value : Bytes}

theorem Lists.isSome (h : Lists cells m) : (m key).isSome = true ↔ ∃ v, (key, v) ∈ cells := by
  rw [Option.isSome_iff_exists]
  exact exists_congr fun v => (h key v).symm

theorem Lists.eq_none (h : Lists cells m) (hno : ∀ v, (key, v) ∉ cells) : m key = none :=
  Option.eq_none_iff_forall_ne_some.2 fun v hv => hno v ((h key v).2 hv)

theorem Lists.adds (h : Lists cells m) (ha : Adds key value cells cells') : Lists cells' (Function.update m key (some value)) := by
  intro k v
  rw [ha.2, h k v, Function.update_apply, Prod.mk.injEq]
  by_cases hk : k = key
  · rw [if_pos hk, hk, h.eq_none ha.1]
    simp [eq_comm]
  · simp [hk]

theorem Lists.setValue (h : Lists cells m) (hkey : ∃ v, (key, v) ∈ cells) :
    Lists (setValue key value cells) (Function.update m key (some value)) := by
  intro k v
  rw [mem_setValue, h k v, Function.update_apply]
  by_cases hk : k = key
  · simp [hk, hkey, eq_comm]
  · simp [hk]

theorem Lists.filter (h : Lists cells m) : Lists (cells.filter fun c => decide (c.1 ≠ key)) (Function.update m key none) := by
  intro k v
  rw [List.mem_filter, h k v, Function.update_apply]
  by_cases hk : k = key <;> simp [hk]

end Lists

/-! ### Calls on a sound tree -/

/-- The tree `tr` is on the pages at `root`, as the engine sees them. -/
structure Holds (t : PyTree) (root : Nat) (tr : Tree) : Prop where
  reads : t.Reads t.store
  sound : SoundTree t.store root tr

section Calls

variable {t t' : PyTree} {root r : Nat} {tr : Tree} {key : Int} {value : Bytes}

theorem Start.holds (h : t.Start root) : Holds t root ⟨0, PT.leaf root [] noPage⟩ := ⟨h.reads, h.leaf.sound⟩

theorem Holds.of_run {s : Store (Option Nat)} (hs : SoundTree s root tr) (hr : t.Reads s) : Holds t root tr := by
  obtain rfl := hr.eq_store hs.stale
  exact ⟨hr, hs⟩

/-- An insertion that returns. -/
theorem Holds.insert (h : Holds t root tr) (hk : IsI64 key) (hv : value.length ≤ maxValueSize) (hx : t.insert root key value = .ok r t') :
    ∃ tr', Holds t' r tr' ∧ Adds key value tr.cells tr'.cells ∧ ∃ n, tr.put key value t.pager.numPages = .ok (tr', n) := by
  have hdoes := does_insert_tree h.sound.tree h.sound.stale key value
  rw [h.sound.root] at hdoes
  obtain ⟨s', hrun, hr'⟩ := h.reads.run_ok hdoes (fun _ he => he.1.1 rfl) hx
  obtain ⟨tr', hs', hput, hadds⟩ := h.sound.insert hk hv hrun
  exact ⟨tr', .of_run hs' hr', hadds, _, hput⟩

/-- An insertion that raises `DuplicateKey` changes nothing. -/
theorem Holds.insert_duplicate (h : Holds t root tr) {k : Int} (hx : t.insert root key value = .error (.duplicateKey k) t') :
    Holds t' root tr ∧ ∃ v, (key, v) ∈ tr.cells := by
  have hdoes := does_insert_tree h.sound.tree h.sound.stale key value
  rw [h.sound.root] at hdoes
  obtain ⟨s', -, he, hr'⟩ := h.reads.run_error hdoes (fun _ he => he.1.1 rfl) hx
  obtain ⟨rfl, rfl, hkey⟩ := he.1.2.2 k rfl
  exact ⟨.of_run h.sound hr', hkey⟩

/-- The loop of `upsert` over a key that is there. -/
theorem Holds.overwrite (h : Holds t root tr) (hv : value.length ≤ maxValueSize) (hkey : ∃ v, (key, v) ∈ tr.cells) :
    Exec.Post (BTree.overwrite root key value t.pager.numPages root).exec t
      (fun r t' => Holds t' r (tr.replace key value) ∧ (tr.replace key value).cells = LeafDb.setValue key value tr.cells)
      fun e _ => ∀ k, e ≠ .duplicateKey k := by
  have hup := upsert_of_present h.sound.tree h.sound.stale hkey hv
  have hdoes := does_upsert_present h.sound.tree h.sound.stale hkey hv
  rw [Exec.Post, hup] at hdoes
  rw [h.sound.root] at hup hdoes
  change Does _ _ _ _ at hdoes
  rw [Exec.Post]
  rcases hx : (BTree.overwrite root key value t.pager.numPages root).exec t with ⟨r, t'⟩ | ⟨e, t'⟩
  · obtain ⟨s', hrun, hr'⟩ := h.reads.run_ok hdoes (fun _ he => he.1.1 rfl) hx
    obtain ⟨hs', hcells⟩ := h.sound.upsert hv hkey (hup.trans hrun)
    exact ⟨.of_run hs' hr', hcells⟩
  · obtain ⟨s', -, he, -⟩ := h.reads.run_error hdoes (fun _ he => he.1.1 rfl) hx
    exact fun k hk => he.1.2.2 k (hk ▸ rfl)

/-- What deletion does. -/
theorem Holds.delete (h : Holds t root tr) (key : Int) :
    Exec.Post (BTree.delete t.pager.numPages root key).exec t
      (fun r t' => ∃ tr', Holds t' r.1 tr' ∧ tr'.cells = tr.cells.filter (fun c => decide (c.1 ≠ key)) ∧
        (r.2 = true ↔ ∃ v, (key, v) ∈ tr.cells) ∧ tr.erase key = .ok (tr', r.2))
      fun e _ => ∀ k, e ≠ .duplicateKey k := by
  have hdoes := does_delete_tree h.sound.tree h.sound.stale key
  rw [h.sound.root] at hdoes
  rw [Exec.Post]
  rcases hx : (BTree.delete t.pager.numPages root key).exec t with ⟨r, t'⟩ | ⟨e, t'⟩
  · obtain ⟨s', hrun, hr'⟩ := h.reads.run_ok hdoes (fun _ he => he.1.1 rfl) hx
    obtain ⟨tr', hs', herase, hcells, hfound⟩ := h.sound.delete hrun
    exact ⟨tr', .of_run hs' hr', hcells, hfound, herase⟩
  · obtain ⟨s', -, he, -⟩ := h.reads.run_error hdoes (fun _ he => he.1.1 rfl) hx
    exact fun k hk => he.1.2.2 k (hk ▸ rfl)

/-- A call that does not split a leaf when the next page has the number of no page leaves a tree to be linked. -/
theorem Holds.linkable (h : Holds t root tr) (hl : tr.Linkable) {c : Call} {tr' : Tree} (hmakes : c.Makes t.pager.numPages tr tr')
    (hlast : ¬c.SplitsLast t root) : tr'.Linkable := by
  have hput : ∀ {key value n}, (∀ v, (key, v) ∉ tr.cells) → tr.put key value t.pager.numPages = .ok (tr', n) →
      ¬(Call.insert key value).SplitsLast t root → tr'.Linkable := by
    intro key value n hno hput hlast
    refine hl.put hput ?_
    intro hn
    have hleaf := h.sound.tree.leafOf key
    rw [h.sound.root] at hleaf
    refine not_lt.1 fun hgt => hlast ⟨hn, _, hleaf, ?_, hgt⟩
    intro hm
    obtain ⟨c, hc, rfl⟩ := List.mem_map.1 hm
    exact hno c.2 (PT.cellsAt_subset tr.2 c hc)
  cases c with
  | insert key value =>
    obtain rfl | ⟨hno, n, hp⟩ := hmakes
    · exact hl
    · exact hput hno hp hlast
  | upsert key value =>
    obtain ⟨-, rfl⟩ | ⟨hno, n, hp⟩ := hmakes
    · exact hl.replace
    · exact hput hno hp hlast
  | delete key =>
    obtain ⟨found, herase⟩ := hmakes
    exact hl.erase h.sound.legal herase
  | search | rangeScan =>
    obtain rfl : tr' = tr := hmakes
    exact hl

theorem Holds.search (h : Holds t root tr) (key : Int) : ∃ v t', (BTree.lookup t.pager.numPages root key).exec t = .ok v t' ∧
    Holds t' root tr ∧ ∀ w, v = some w ↔ (key, w) ∈ tr.cells := by
  have hdoes := does_lookup h.sound.tree h.sound.stale key
  rw [h.sound.root] at hdoes
  obtain ⟨v, t', s', hx, ⟨rfl, hv⟩, hr'⟩ := h.reads.exec_total hdoes
  exact ⟨v, t', hx, .of_run h.sound hr', hv⟩

theorem Holds.rangeScan (h : Holds t root tr) (hl : tr.Linkable) (lo hi : Option Int) :
    ∃ t', (BTree.range t.pager.numPages root lo hi).exec t = .ok (cellsWithin lo hi tr.cells) t' ∧ Holds t' root tr := by
  have hdoes := does_range h.sound.tree h.sound.stale (fun l hm => hl l.page ?_) lo hi
  swap
  · simpa [PT.leafPages, PT.leavesL, List.map_tail] using List.mem_map_of_mem (f := PLeaf.page) hm
  rw [h.sound.root] at hdoes
  obtain ⟨_, t', s', hx, ⟨rfl, rfl⟩, hr'⟩ := h.reads.exec_total hdoes
  exact ⟨t', hx, .of_run h.sound hr'⟩

end Calls

/-! ### Runs -/

section Runs

variable {t t' : PyTree} {root root' : Nat} {tr : Tree} {m : Int → Option Bytes} {r : Reply}

theorem reply_eq_some {α : Type} {f : α → Reply × Nat} {x : EStateM.Result PyError PyTree α} (h : reply root f x = some (r, t', root')) :
    (∃ a, x = .ok a t' ∧ f a = (r, root')) ∨ ∃ k, x = .error (.duplicateKey k) t' ∧ r = .duplicateKey ∧ root' = root := by
  rcases x with ⟨a, u⟩ | ⟨e, u⟩
  · cases h
    exact .inl ⟨a, rfl, rfl⟩
  · cases e
    case duplicateKey k =>
      cases h
      exact .inr ⟨k, rfl, rfl, rfl⟩
    all_goals cases h

/-- Each call gives the reply of the map, and makes a tree with the cells of the map after it. -/
theorem Holds.call_makes (h : Holds t root tr) (hl : tr.Linkable) (hm : Lists tr.cells m) {c : Call} (hc : c.Legal)
    (hx : t.call root c = some (r, t', root')) :
    c.Answers m r ∧ ∃ tr', Holds t' root' tr' ∧ Lists tr'.cells (c.apply m) ∧ c.Makes t.pager.numPages tr tr' := by
  cases c with
  | insert key value =>
    rcases reply_eq_some hx with ⟨a, hy, hf⟩ | ⟨k, hy, rfl, rfl⟩
    · cases hf
      obtain ⟨tr', h', hadds, hput⟩ := h.insert hc.1 hc.2 hy
      have hnone : ¬(m key).isSome = true := by simp [hm.eq_none hadds.1]
      refine ⟨(if_neg hnone).symm, tr', h', ?_, .inr ⟨hadds.1, hput⟩⟩
      rw [Call.apply, if_neg hnone]
      exact hm.adds hadds
    · obtain ⟨h', hkey⟩ := h.insert_duplicate hy
      have hsome := hm.isSome.2 hkey
      refine ⟨(if_pos hsome).symm, tr, h', ?_, .inl rfl⟩
      rw [Call.apply, if_pos hsome]
      exact hm
  | upsert key value =>
    rw [PyTree.call, upsert] at hx
    rcases hins : t.insert root key value with ⟨a, u⟩ | ⟨e, u⟩
    · rw [hins] at hx
      cases hx
      obtain ⟨tr', h', hadds, hput⟩ := h.insert hc.1 hc.2 hins
      exact ⟨rfl, tr', h', hm.adds hadds, .inr ⟨hadds.1, hput⟩⟩
    · rw [hins] at hx
      cases e
      case duplicateKey k =>
        obtain ⟨h', hkey⟩ := h.insert_duplicate hins
        have hover := h'.overwrite hc.2 hkey
        rcases reply_eq_some hx with ⟨a, hy, hf⟩ | ⟨k, hy, -⟩
        · cases hf
          obtain ⟨h'', hcells⟩ := hover.of_ok hy
          exact ⟨rfl, _, h'', hcells ▸ hm.setValue hkey, .inl ⟨h.sound.tree.good.present_iff.2 hkey, rfl⟩⟩
        · exact absurd rfl (hover.of_error hy k)
      all_goals cases hx
  | delete key =>
    have hdel := h.delete key
    rcases reply_eq_some hx with ⟨a, hy, hf⟩ | ⟨k, hy, -⟩
    · cases hf
      obtain ⟨tr', h', hcells, hfound, herase⟩ := hdel.of_ok hy
      exact ⟨congrArg Reply.found (Bool.eq_iff_iff.2 (hfound.trans hm.isSome.symm)), tr', h', hcells ▸ hm.filter, _, herase⟩
    · exact absurd rfl (hdel.of_error hy k)
  | search key =>
    obtain ⟨v, u, hv, h', hfound⟩ := h.search key
    rw [PyTree.call, hv] at hx
    cases hx
    exact ⟨congrArg Reply.value (Option.ext fun w => (hfound w).trans (hm key w)), tr, h', hm, rfl⟩
  | rangeScan lo hi =>
    obtain ⟨u, hu, h'⟩ := h.rangeScan hl lo hi
    rw [PyTree.call, hu] at hx
    cases hx
    refine ⟨⟨_, rfl, ascending_cellsWithin (ascending_cells h.sound.tree.bounded), ?_⟩, tr, h', hm, rfl⟩
    intro k v
    rw [mem_cellsWithin, hm k v]

/-- Each call gives the reply of the map, and leaves a tree with the cells of the map after it. -/
theorem Holds.call (h : Holds t root tr) (hl : tr.Linkable) (hm : Lists tr.cells m) {c : Call} (hc : c.Legal)
    (hx : t.call root c = some (r, t', root')) :
    c.Answers m r ∧ ∃ tr', Holds t' root' tr' ∧ Lists tr'.cells (c.apply m) ∧ (¬c.SplitsLast t root → tr'.Linkable) := by
  obtain ⟨hans, tr', h', hm', hmakes⟩ := h.call_makes hl hm hc hx
  exact ⟨hans, tr', h', hm', h.linkable hl hmakes⟩

/-- A tree with the cells of the map shows the map. -/
theorem Holds.refines (h : Holds t root tr) (hl : tr.Linkable) (hm : Lists tr.cells m) : Refines t root m where
  search key := by
    obtain ⟨v, u, hv, -, hfound⟩ := h.search key
    refine ⟨u, ?_⟩
    rw [PyTree.call, hv, Option.ext fun w => (hfound w).trans (hm key w)]
    rfl
  scan lo hi := by
    obtain ⟨u, hu, -⟩ := h.rangeScan hl lo hi
    have hcall : t.call root (.rangeScan lo hi) = some (.cells (cellsWithin lo hi tr.cells), u, root) := by
      rw [PyTree.call, hu]
      rfl
    exact ⟨_, u, hcall, (h.call hl hm (show (Call.rangeScan lo hi).Legal from trivial) hcall).1⟩
  answers c r t' root' hc hx := (h.call hl hm hc hx).1

/-- In a run without a split onto the page whose number ends a chain the tree shows the map. -/
theorem refines_map (hstart : t.Start root) {calls : List Call} {s : PyTree × Nat}
    (hrun : Run step (fun s c => c.Legal ∧ ¬c.SplitsLast s.1.1 s.1.2) ((t, root), fun _ => none) calls (s, m)) :
    Refines s.1 s.2 m := by
  have hinv := Run.invariant (P := fun s : WithMap => ∃ tr, Holds s.1.1 s.1.2 tr ∧ tr.Linkable ∧ Lists tr.cells s.2) ?_ hrun
    ⟨_, hstart.holds, by simp [Tree.Linkable], by simp [Lists, Tree.cells]⟩
  · obtain ⟨tr, h, hl, hm⟩ := hinv
    exact h.refines hl hm
  · rintro ⟨⟨t, root⟩, m⟩ c s' ⟨tr, h, hl, hm⟩ ⟨hc, hlast⟩ hstep
    obtain ⟨⟨r, t', root'⟩, hx, rfl⟩ := Option.map_eq_some_iff.1 hstep
    obtain ⟨-, tr', h', hm', hl'⟩ := h.call hl hm hc hx
    exact ⟨tr', h', hl' hlast, hm'⟩

end Runs

/-! ### A leaf on the last page -/

/-- The page of an empty leaf. -/
def leafPage : Bytes := padTo pageSize (Node.leaf [] none : PyNode).encode

/-- A file of `n` pages with an empty leaf on page 1; the other pages are zero. -/
def leafFile (n : Nat) : Bytes := writePage (List.replicate (n * pageSize) 0) 1 leafPage

/-- A `BTree` object over this file. -/
def leafTree (n : Nat) : PyTree := ⟨Pager.openFile (leafFile n) 64 (Nat.succ_pos 63), ∅⟩

section LeafTree

variable {n : Nat}

theorem length_leafPage : leafPage.length = pageSize := length_padTo (by decide)

theorem numPages_leafTree (hn : 2 ≤ n) : (leafTree n).pager.numPages = n := by
  have hlen : (leafFile n).length = n * pageSize := by
    rw [leafFile, Pager.length_writePage _ _ length_leafPage, List.length_replicate]
    exact max_eq_left (Nat.mul_le_mul_right _ hn)
  change max 1 ((leafFile n).length / pageSize) = n
  rw [hlen, Nat.mul_div_cancel n (by decide)]
  exact max_eq_right (by omega)

theorem start_leafTree (hn : 2 ≤ n) : (leafTree n).Start 1 := by
  have hcached := Pager.cached_openFile (leafFile n) 64 (Nat.succ_pos 63)
  refine ⟨reads_new (Pager.wf_openFile _ _ _).live fun k im hk => ?_, rfl, ⟨Nat.one_pos, ?_⟩, ?_⟩
  · rw [hcached] at hk
    cases hk
  · rw [numPages_store, numPages_leafTree hn]
    omega
  · have hcontent : (leafTree n).pager.content 1 = leafPage := by
      refine (Pager.content_of_not_cached (hcached 1)).trans ?_
      exact (readPage_writePage length_leafPage).trans (if_pos rfl)
    change nodeFromBytes ((leafTree n).pager.content 1) = _
    rw [hcontent, leafPage]
    exact nodeFromBytes_toBytes (if_pos (by decide))

end LeafTree

section LastPage

variable {t : PyTree} {root n : Nat} {tr tr' : Tree} {key : Int} {value : Bytes}

/-- An insertion whose result can be written. -/
theorem Holds.call_insert (h : Holds t root tr) (hk : IsI64 key) (hv : value.length ≤ maxValueSize) (hno : ∀ v, (key, v) ∉ tr.cells)
    (hput : tr.put key value t.pager.numPages = .ok (tr', n)) (hl : tr'.Legal) :
    ∃ t', t.call root (.insert key value) = some (.done, t', tr'.root) ∧ Holds t' tr'.root tr' ∧ t'.pager.numPages = n := by
  obtain ⟨s', hrun, hs', hn⟩ := h.sound.run_insert hk hv hno hput hl
  obtain ⟨t', hx, hr'⟩ := h.reads.exec_ok hrun
  refine ⟨t', ?_, .of_run hs' hr', by rw [← hn, hr'.numPages]⟩
  rw [PyTree.call, PyTree.insert, ← numPages_store, hx]
  rfl

/-- An overwriting whose result can be written. -/
theorem Holds.call_upsert (h : Holds t root tr) (hv : value.length ≤ maxValueSize) (hkey : ∃ v, (key, v) ∈ tr.cells)
    (hl : (tr.replace key value).Legal) : ∃ t', t.call root (.upsert key value) = some (.done, t', root) ∧
      Holds t' root (tr.replace key value) ∧ t'.pager.numPages = t.pager.numPages := by
  obtain ⟨r, s', hrun⟩ := (h.sound.upsert_returns hv hkey).2 hl
  have hup := upsert_of_present h.sound.tree h.sound.stale hkey hv
  have hins := does_insert_present h.sound.tree h.sound.stale hkey hv
  rw [h.sound.root] at hup hins
  -- the insertion finds the key
  obtain ⟨u, hu, hr⟩ : ∃ u, t.insert root key value = .error (.duplicateKey key) u ∧ u.Reads t.store := by
    have hsim := does_exec (BTree.insert t.store.numPages root key value) h.reads
    rcases hx : (BTree.insert t.store.numPages root key value).run t.store with ⟨a, s''⟩ | ⟨e, s''⟩
    · exact (hins.of_ok hx).elim
    · obtain ⟨rfl, rfl⟩ := hins.of_error hx
      obtain ⟨u, hu, hr⟩ := hsim.of_error hx _ rfl
      exact ⟨u, hu, hr⟩
  obtain ⟨t', hx, hr'⟩ := hr.exec_ok (hup.symm.trans hrun)
  have hdoes := does_upsert_present h.sound.tree h.sound.stale hkey hv
  rw [h.sound.root] at hdoes
  obtain ⟨rfl, -, -, hn, -⟩ := hdoes.of_ok hrun
  refine ⟨t', ?_, .of_run (h.sound.upsert hv hkey hrun).1 hr', hr'.numPages.symm.trans hn⟩
  rw [PyTree.call, PyTree.upsert, hu]
  dsimp only
  rw [← numPages_store, ← hr.eq_store rfl, hx]
  rfl

/-- A deletion that starves no leaf. -/
theorem Holds.call_delete (h : Holds t root tr) (hs : ¬tr.2.Starves key) :
    ∃ tr' found t', tr.erase key = .ok (tr', found) ∧ t.call root (.delete key) = some (.found found, t', tr'.root) ∧
      Holds t' tr'.root tr' := by
  obtain ⟨r, s', hrun⟩ := h.sound.delete_returns.2 hs
  obtain ⟨tr', hs', herase, -⟩ := h.sound.delete hrun
  obtain ⟨t', hx, hr'⟩ := h.reads.exec_ok hrun
  have hroot := hs'.root
  refine ⟨tr', r.2, t', herase, ?_, .of_run (hroot ▸ hs') hr'⟩
  rw [PyTree.call, ← numPages_store, hx, reply, hroot]

/-- A call on a tree whose next page is not the last one. -/
theorem step_of_call {c : Call} {t' : PyTree} {r : Reply} {root' : Nat} (m : Int → Option Bytes)
    (hcall : t.call root c = some (r, t', root')) (hn : t.pager.numPages = n) (hne : n ≠ noPage) :
    step ((t, root), m) c = some ((t', root'), c.apply m) ∧ ¬c.SplitsLast t root := by
  refine ⟨by rw [step, hcall]; rfl, ?_⟩
  cases c with
  | insert | upsert => exact fun h => hne (hn ▸ h.1)
  | delete | search | rangeScan => exact fun h => h

/-- The first long value. -/
theorem call_insert_leafTree {v : Bytes} (hv : v.length = 2048) (hn : 2 ≤ n) :
    ∃ t, (leafTree n).call 1 (.insert 1 v) = some (.done, t, 1) ∧ Holds t 1 ⟨0, PT.leaf 1 [(1, v)] noPage⟩ ∧ t.pager.numPages = n := by
  have hsize : 9 + cellsSize ([] ++ [((1 : Int), v)]) ≤ pageSize := by simp [hv, pageSize]
  have hmax : v.length ≤ maxValueSize := hv.trans_le (by decide)
  have hk : IsI64 1 := isI64_of_small (by omega)
  have hput : Tree.put 1 v ⟨0, PT.leaf 1 [] noPage⟩ (leafTree n).pager.numPages = .ok (⟨0, PT.leaf 1 [(1, v)] noPage⟩, n) := by
    rw [numPages_leafTree hn]
    exact put_last_root (by simp) hsize
  have hl : Tree.Legal ⟨0, PT.leaf 1 [(1, v)] noPage⟩ := PT.fits_leaf.2 ⟨⟨by decide, by simpa using ⟨hk, hmax⟩⟩, hsize⟩
  exact (start_leafTree hn).holds.call_insert hk hmax (by simp [Tree.cells]) hput hl

end LastPage

/-- Two long values, the second in a leaf of its own; the first is overwritten, the second deleted. -/
theorem refines_map_twoLeaves : ∃ s m, Run step (fun s c => c.Legal ∧ ¬c.SplitsLast s.1.1 s.1.2) ((leafTree 2, 1), fun _ => none)
    [.insert 1 longValue, .insert 2 longValue, .upsert 1 [7], .delete 2] (s, m) ∧ Refines s.1 s.2 m := by
  have hlen := length_longValue
  generalize longValue = v at hlen ⊢
  have hmax : v.length ≤ maxValueSize := hlen.trans_le (by decide)
  have h64 : ∀ k : Int, 0 ≤ k ∧ k < 100 → IsI64 k := fun k => isI64_of_small
  obtain ⟨t₁, hcall₁, h₁, hn₁⟩ := call_insert_leafTree hlen le_rfl
  obtain ⟨t₂, hcall₂, h₂, hn₂⟩ := h₁.call_insert (h64 2 (by omega)) hmax (by simp [Tree.cells])
    (by rw [hn₁]; exact put_twoLeaves hlen 2) (legal_twoLeaves hlen (by decide))
  change t₂.Holds 3 (twoLeaves v) at h₂
  have hlegal := (PT.replace_legal_iff h₂.sound.legal (h64 1 (by omega)) (by decide)).2 (roomFor_first (w := [7]) (by decide) _)
  obtain ⟨t₃, hcall₃, h₃, hn₃⟩ := h₂.call_upsert (by decide) ⟨v, (mem_cells_twoLeaves 2).2 (.inl rfl)⟩ hlegal
  rw [twoLeaves, replace_first] at h₃
  obtain ⟨tr', found, t₄, -, hcall₄, -⟩ := h₃.call_delete (not_starves_last _ _ _)
  obtain ⟨hstep₁, hlast₁⟩ := step_of_call (fun _ => none) hcall₁ (numPages_leafTree le_rfl) (by decide)
  obtain ⟨hstep₂, hlast₂⟩ := step_of_call (Call.apply _ _) hcall₂ hn₁ (by decide)
  obtain ⟨hstep₃, hlast₃⟩ := step_of_call (Call.apply _ _) hcall₃ hn₂ (by decide)
  obtain ⟨hstep₄, hlast₄⟩ := step_of_call (Call.apply _ _) hcall₄ (hn₃.trans hn₂) (by decide)
  have hrun : Run step (fun s c => c.Legal ∧ ¬c.SplitsLast s.1.1 s.1.2) ((leafTree 2, 1), fun _ => none)
      [.insert 1 v, .insert 2 v, .upsert 1 [7], .delete 2] _ := .cons ⟨⟨h64 1 (by omega), hmax⟩, hlast₁⟩ hstep₁ <|
    .cons ⟨⟨h64 2 (by omega), hmax⟩, hlast₂⟩ hstep₂ <| .cons ⟨⟨h64 1 (by omega), by decide⟩, hlast₃⟩ hstep₃ <|
      .cons ⟨trivial, hlast₄⟩ hstep₄ (.nil _)
  exact ⟨_, _, hrun, refines_map (start_leafTree le_rfl) hrun⟩

/-- The second of two long values goes to a leaf on page 2^32 - 1, and a scan ends before it. -/
theorem not_refines_map : ∃ s m, Run step (fun _ c => c.Legal) ((leafTree noPage, 1), fun _ => none)
    [.insert 1 longValue, .insert 2 longValue] (s, m) ∧ ¬Refines s.1 s.2 m := by
  have hlen := length_longValue
  generalize longValue = v at hlen ⊢
  have hmax : v.length ≤ maxValueSize := hlen.trans_le (by decide)
  have h64 : ∀ k : Int, 0 ≤ k ∧ k < 100 → IsI64 k := fun k => isI64_of_small
  obtain ⟨t₁, hcall₁, h₁, hn₁⟩ := call_insert_leafTree (n := noPage) hlen (by decide)
  obtain ⟨t₂, hcall₂, h₂, -⟩ := h₁.call_insert (h64 2 (by omega)) hmax (by simp [Tree.cells])
    (by rw [hn₁]; exact put_twoLeaves hlen noPage) (legal_twoLeaves hlen (by decide))
  have hstep₁ : step ((leafTree noPage, 1), fun _ => none) (.insert 1 v) = some ((t₁, 1), Call.apply (fun _ => none) (.insert 1 v)) := by
    rw [step, hcall₁]
    rfl
  have hstep₂ : step ((t₁, 1), Call.apply (fun _ => none) (.insert 1 v)) (.insert 2 v) =
      some ((t₂, noPage + 1), Call.apply (Call.apply (fun _ => none) (.insert 1 v)) (.insert 2 v)) := by
    rw [step, hcall₂]
    rfl
  refine ⟨_, _, .cons ⟨h64 1 (by omega), hmax⟩ hstep₁ (.cons ⟨h64 2 (by omega), hmax⟩ hstep₂ (.nil _)), fun href => ?_⟩
  -- the scan that the map asks for has both values
  obtain ⟨_, u, hcall, out, rfl, hasc, hout⟩ := href.scan none none
  have hboth : ∀ c, c = (1, v) ∨ c = (2, v) → c ∈ out := by
    rintro c (rfl | rfl) <;> refine (hout _ _).2 ⟨?_, by simp, by simp⟩ <;> simp [Call.apply]
  -- the scan of the tree has not: its chain ends at the page of the second leaf
  have hdoes := does_items h₂.sound.tree h₂.sound.stale
  rw [← BTree.range_none] at hdoes
  obtain ⟨out', u', _, hx, ⟨⟨-, hsub⟩, -, hwhole⟩, -⟩ := h₂.reads.exec_total hdoes
  obtain rfl : out' = out := by
    change reply _ _ ((BTree.range _ _ none none).exec t₂) = _ at hcall
    rw [← numPages_store, show noPage + 1 = Tree.root ⟨1, PT.branch (noPage + 1) [2] _⟩ from rfl, hx] at hcall
    cases hcall
    rfl
  have hnodup : (PT.cellsL [_]).Nodup := (ascending_cells h₂.sound.tree.bounded).imp fun h he => h.ne (congrArg Prod.fst he)
  have heq := hsub.eq_of_length_le (hnodup.subperm fun c hc => hboth c ((mem_cells_twoLeaves noPage).1 hc)).length_le
  exact (hwhole (by simp)).1 heq ⟨noPage, [(2, v)], noPage⟩ (by simp) rfl

end PyTree

end LeafDb
