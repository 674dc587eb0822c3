import LeafDb.TreeMap

/-!
# A tree in a session

What a session does to its `BTree` besides calling it: a call that raises leaves some pager and some node cache, pages are
read and written outside the tree, and a pager goes on with the same pages. In every case the node cache still agrees with
the pages.
-/

namespace LeafDb

open PyTree

variable {P : Pager → Prop} {t t' : PyTree} {root root' : Nat} {tr : Tree} {C : Nat → Bytes} {α : Type}

namespace PyTree

/-! ### However a call ends -/

/-- The state in which a computation ends. -/
def ended {α : Type} : EStateM.Result PyError PyTree α → PyTree
  | .ok _ t => t
  | .error _ t => t

/-- The tree after a call, whether it returns or raises. -/
def after (t : PyTree) (root : Nat) : Call → PyTree
  | .insert key value => ended (t.insert root key value)
  | .upsert key value => ended (t.upsert root key value)
  | .delete key => ended ((BTree.delete t.pager.numPages root key).exec t)
  | .search key => ended ((BTree.lookup t.pager.numPages root key).exec t)
  | .rangeScan lo hi => ended ((BTree.range t.pager.numPages root lo hi).exec t)

theorem ended_of_reply {f : α → Reply × Nat} {x : EStateM.Result PyError PyTree α} {r : Reply}
    (h : reply root f x = some (r, t', root')) : t' = ended x := by
  rcases x with ⟨a, u⟩ | ⟨e, u⟩
  · cases h
    rfl
  · cases e <;> cases h
    rfl

theorem eq_after {c : Call} {r : Reply} (h : t.call root c = some (r, t', root')) : t' = t.after root c := by
  cases c <;> exact ended_of_reply h

/-- A call that raises `DuplicateKey` leaves the root. -/
theorem root_of_duplicate {c : Call} (h : t.call root c = some (.duplicateKey, t', root')) : root' = root := by
  have hroot : ∀ {β : Type} {f : β → Reply × Nat} {x : EStateM.Result PyError PyTree β}, (∀ b, (f b).1 ≠ .duplicateKey) →
      reply root f x = some (.duplicateKey, t', root') → root' = root := by
    intro β f x hf hr
    rcases reply_eq_some hr with ⟨b, -, hb⟩ | ⟨k, -, -, hr⟩
    · exact absurd (congrArg Prod.fst hb) (hf b)
    · exact hr
  cases c <;> exact hroot (fun b hb => by cases hb) h

theorem ended_of_post {R : PyTree → Prop} {x : EStateM PyError PyTree α} (h : Exec.Post x t (fun _ => R) fun _ => R) :
    R (ended (x t)) := by
  unfold Exec.Post at h
  rcases hx : x t with ⟨a, u⟩ | ⟨e, u⟩ <;> rw [hx] at h <;> exact h

/-- What every page program keeps holds after a call. -/
theorem after_of_exec {R : PyTree → Prop} (hR : ∀ {α : Type} (x : TreeM (Option Nat) α) {t : PyTree}, R t →
    Exec.Post x.exec t (fun _ => R) fun _ => R) (h : R t) (c : Call) : R (t.after root c) := by
  cases c with
  | insert key value => exact ended_of_post (hR _ h)
  | delete key => exact ended_of_post (hR _ h)
  | search key => exact ended_of_post (hR _ h)
  | rangeScan lo hi => exact ended_of_post (hR _ h)
  | upsert key value =>
    have hins := hR (BTree.insert t.pager.numPages root key value) h
    rw [after, upsert]
    unfold Exec.Post at hins
    rcases hx : t.insert root key value with ⟨r, u⟩ | ⟨e, u⟩ <;> rw [PyTree.insert] at hx <;> rw [hx] at hins
    · exact hins
    · cases e with
      | duplicateKey k => exact ended_of_post (hR _ hins)
      | _ => exact hins

/-! ### The node cache -/

/-- What is in the node cache was loaded once. -/
def Loaded (t : PyTree) : Prop := ∀ n im nd, t.ncache.lookup n = some (im, nd) → im.id < t.pager.nextId ∧ n < t.pager.numPages

theorem Loaded.pager (h : t.Loaded) {p : Pager} (hid : t.pager.nextId ≤ p.nextId) (hnum : t.pager.numPages ≤ p.numPages) :
    Loaded { t with pager := p } := by
  intro n im nd hn
  obtain ⟨h1, h2⟩ := h n im nd hn
  exact ⟨h1.trans_le hid, h2.trans_le hnum⟩

theorem Loaded.insert (h : t.Loaded) {n : Nat} {im : Image} {nd : PyNode} (hid : im.id < t.pager.nextId)
    (hn : n < t.pager.numPages) {cache : AList fun _ : Nat => Image × PyNode}
    (hcache : ∀ k e, cache.lookup k = some e → t.ncache.lookup k = some e) :
    Loaded ⟨t.pager, cache.insert n (im, nd)⟩ := by
  intro k im' nd' hk
  change (cache.insert n (im, nd)).lookup k = some (im', nd') at hk
  by_cases hkn : k = n
  · rw [hkn, AList.lookup_insert] at hk
    cases hk
    rw [hkn]
    exact ⟨hid, hn⟩
  · rw [AList.lookup_insert_ne hkn] at hk
    exact h k im' nd' (hcache k _ hk)

theorem Loaded.load (h : t.Loaded) (hl : t.pager.Live) (n : Nat) :
    Exec.Post (PyTree.load n) t (fun _ t' => t'.Loaded) fun _ t' => t'.Loaded := by
  rw [Exec.Post, PyTree.load]
  cases hg : t.pager.get n with
  | error e => exact h
  | ok r =>
    obtain ⟨im, p⟩ := r
    have hf := Pager.fetches_get_live hl hg
    have h' : Loaded { t with pager := p } := h.pager hf.nextId_le hf.numPages_eq.ge
    have hn : n < p.numPages := by
      have hpos := hl.numPages_pos
      have hin : ¬(t.pager.numPages ≤ n ∧ n ≠ 0) := fun hout => by
        rw [Pager.get, if_pos hout] at hg
        cases hg
      rw [hf.numPages_eq]
      omega
    cases hh : t.hit n im with
    | some nd => simpa only [hh] using h'
    | none =>
      cases hd : nodeFromBytes im.bytes with
      | error e => simpa only [hh, hd] using h'
      | ok nd =>
        simp only [hh, hd]
        refine h'.insert hf.id_lt hn fun k e hk => ?_
        split at hk
        · simp at hk
        · exact hk

theorem Loaded.mutate (h : t.Loaded) (n : Nat) (nd : PyNode) : (t.mutate n nd).Loaded := by
  rw [PyTree.mutate]
  split
  · rename_i im nd' hn
    obtain ⟨hid, hlt⟩ := h n im nd' hn
    exact h.insert hid hlt fun _ _ hk => hk
  · exact h

theorem Loaded.write (h : t.Loaded) (hl : t.pager.Live) (n : Nat) (nd : PyNode) :
    Exec.Post (PyTree.write n nd) t (fun _ t' => t'.Loaded) fun _ t' => t'.Loaded := by
  rw [Exec.Post, PyTree.write]
  cases hb : nd.toBytes with
  | error e => exact h
  | ok data =>
    cases hw : t.pager.write n data with
    | error e => simpa only [hw] using h
    | ok p =>
      obtain ⟨hs, -⟩ := hl.write hw
      simp only [hw]
      exact h.pager ((Nat.le_succ _).trans hs.nextId_le) (hs.numPages_eq ▸ Nat.le_max_left ..)

theorem Loaded.allocate (h : t.Loaded) (hl : t.pager.Live) : Loaded { t with pager := t.pager.allocate.2 } := by
  obtain ⟨hs, -⟩ := hl.allocate
  exact h.pager hs.nextId_le (hs.numPages_eq ▸ (Nat.le_succ _).trans (Nat.le_max_left ..))

end PyTree

/-- By induction on the program: `P` is kept, and the cache has only what was loaded. -/
theorem Keeps.exec_loaded (hP : Keeps P) (hlive : ∀ {p}, P p → p.Live) (x : TreeM (Option Nat) α) {t : PyTree}
    (h : P t.pager ∧ t.Loaded) :
    Exec.Post x.exec t (fun _ t' => P t'.pager ∧ t'.Loaded) fun _ t' => P t'.pager ∧ t'.Loaded := by
  induction x generalizing t with
  | pure a => exact h
  | fail e => exact h
  | load n k ih =>
    have hl := hP.load (n := n) h.1
    have hc := h.2.load (hlive h.1) n
    rw [Exec.Post] at hl hc ⊢
    rw [TreeM.exec]
    rcases hx : PyTree.load n t with ⟨nd, t'⟩ | ⟨e, t'⟩ <;> rw [hx] at hl hc
    · exact ih nd ⟨hl, hc⟩
    · exact ⟨hl, hc⟩
  | mutate n nd k ih => exact ih ⟨by simpa using h.1, h.2.mutate n nd⟩
  | write n nd k ih =>
    have hw := @Keeps.writeNode _ hP n nd _ h.1
    have hc := h.2.write (hlive h.1) n nd
    rw [Exec.Post] at hw hc ⊢
    rw [TreeM.exec]
    rcases hx : PyTree.write n nd t with ⟨u, t'⟩ | ⟨e, t'⟩ <;> rw [hx] at hw hc
    · exact ih ⟨hw, hc⟩
    · exact ⟨hw, hc⟩
  | allocate k ih => exact ih _ ⟨hP.allocate h.1, h.2.allocate (hlive h.1)⟩

/-! ### The tree on some pages -/

/-- The pages with the images `C`. -/
def pagesOf (C : Nat → Bytes) (numPages : Nat) : Store (Option Nat) := ⟨fun n => nodeFromBytes (C n), numPages, []⟩

theorem SoundTree.resize {n m : Nat} (h : SoundTree (pagesOf C n) root tr) (hm : ∀ p ∈ tr.pages, p < m) :
    SoundTree (pagesOf C m) root tr where
  tree := ⟨⟨h.tree.good.kids, h.tree.good.stored, h.tree.good.nodup, fun p hp => ⟨(h.tree.good.range p hp).1, hm p hp⟩,
    h.tree.good.chain⟩, h.tree.lastLink⟩
  root := h.root
  stale := rfl
  legal := h.legal
  keyed := h.keyed

/-- No leaf of a chain has a link to page 0. -/
theorem link_pos {as : List PLeaf} (hc : as.IsChain Next) (hlast : as.getLast?.map PLeaf.link = some noPage)
    (hpos : ∀ b ∈ as, 0 < b.page) : ∀ a ∈ as, 0 < a.link := by
  induction as with
  | nil => simp
  | cons a as ih =>
    intro b hb
    rcases List.mem_cons.1 hb with rfl | hb
    · cases as with
      | nil =>
        obtain hl : b.link = noPage := by simpa using hlast
        rw [hl]
        decide
      | cons c as =>
        rw [show b.link = c.page from (List.isChain_cons_cons.1 hc).1]
        exact hpos c (by simp)
    · cases as with
      | nil => cases hb
      | cons c as =>
        exact ih (List.isChain_cons_cons.1 hc).2 (by simpa using hlast) (fun d hd => hpos d (List.mem_cons_of_mem _ hd)) b hb

theorem exists_leaf_of_nodes : {h : Nat} → {t : PT h} → {p : Nat} → {cells : List Cell} → {next : Option Nat} →
    (p, Node.leaf cells next) ∈ t.nodes → ∃ a ∈ t.leaves, a.page = p ∧ TreeLink.ofCode a.link = next
  | 0, t, p, cells, next, hn => by
    obtain ⟨q, cells', l, rfl⟩ := PT.exists_leaf t
    rw [PT.nodes_leaf, List.mem_singleton, Prod.mk.injEq, Node.leaf.injEq] at hn
    exact ⟨_, List.mem_singleton.2 rfl, hn.1.symm, hn.2.2.symm⟩
  | h + 1, t, p, cells, next, hn => by
    obtain ⟨q, keys, kids, rfl⟩ := PT.exists_branch t
    rcases List.mem_cons.1 hn with hn | hn
    · cases hn
    · obtain ⟨d, hd, hn⟩ := List.mem_flatMap.1 hn
      obtain ⟨a, ha, hp⟩ := exists_leaf_of_nodes hn
      exact ⟨a, List.mem_flatMap.2 ⟨d, hd, ha⟩, hp⟩

/-- A page that is all zero is in no tree. -/
theorem SoundTree.nonzero {n : Nat} (hs : SoundTree (pagesOf C n) root tr) {p : Nat} (hp : p ∈ tr.pages) :
    C p ≠ emptyPage.bytes := by
  obtain ⟨height, t⟩ := tr
  intro hzero
  simp only [Tree.pages, PT.pagesL, List.flatMap_cons, List.flatMap_nil, List.append_nil] at hp
  rw [← PT.map_fst_nodes (ν := Option Nat) t] at hp
  obtain ⟨⟨q, nd⟩, hx, rfl⟩ := List.mem_map.1 hp
  have hstored : nodeFromBytes (C q) = .ok nd := hs.tree.good.stored (q, nd) (by simpa [PT.nodesL] using hx)
  rw [hzero, nodeFromBytes_emptyPage] at hstored
  obtain rfl := Except.ok.inj hstored
  obtain ⟨a, ha, -, hlink⟩ := exists_leaf_of_nodes hx
  have hpages : ∀ b ∈ PT.leavesL [(⟨height, t⟩ : Tree).2], 0 < b.page := by
    intro b hb
    have hb' : b ∈ t.leaves := by simpa [PT.leavesL] using hb
    have hmem := leaf_mem_nodes (ν := Option Nat) hb'
    exact (hs.tree.good.range _ (mem_pages_of_nodes (ν := Option Nat) (by simpa [PT.nodesL] using hmem))).1
  have hpos := link_pos hs.tree.good.chain hs.tree.lastLink hpages a (by simpa [PT.leavesL] using ha)
  have hcode := TreeLink.code_ofCode (ν := Option Nat) a.link
  rw [hlink] at hcode
  change 0 = a.link at hcode
  omega

/-! ### The pages around the tree -/

namespace PyTree

/-- Page `n` is written, whatever it is. -/
theorem Reads.writePage (h : t.Reads t.store) {n : Nat} {data : Bytes} {p : Pager} (hw : t.pager.write n data = .ok p) :
    Reads ⟨p, t.ncache⟩ (PyTree.store ⟨p, t.ncache⟩) := by
  obtain ⟨hs, hl⟩ := h.live.write hw
  have hclean : (t.pager.newImage (padTo pageSize data)).2.Clean := h.clean
  refine ⟨hl, hs.clean hclean, rfl, fun _ => rfl, ?_, fun k im nd hk _ im' hc hid => ?_⟩
  · exact Loaded.pager (t := t) h.loaded ((Nat.le_succ _).trans hs.nextId_le) (hs.numPages_eq ▸ Nat.le_max_left ..)
  · by_cases hkn : k = n
    · subst hkn
      obtain rfl : _ = im' := Option.some.inj (hs.stored.symm.trans hc)
      exact absurd hid (h.loaded k im nd hk).1.ne
    · have hcontent : p.content k = t.pager.content k := hs.content_other hclean hkn
      have := h.hit k im nd hk (by simp) im' (hs.kept k im' hkn hc) hid
      change nodeFromBytes (p.content k) = .ok nd
      rw [hcontent]
      exact this

/-- What reading a page keeps of the pager. -/
theorem post_load {Q : Pager → Prop} {n : Nat} (h : Q t.pager) (hget : ∀ im p, t.pager.get n = .ok (im, p) → Q p) :
    Exec.Post (PyTree.load n) t (fun _ t' => Q t'.pager) fun _ t' => Q t'.pager := by
  rw [Exec.Post, PyTree.load]
  cases hg : t.pager.get n with
  | error e => exact h
  | ok r =>
    obtain ⟨im, p⟩ := r
    have hp := hget im p hg
    cases hh : t.hit n im with
    | some nd => simpa only [hh] using hp
    | none => cases hd : nodeFromBytes im.bytes <;> simpa only [hh, hd] using hp

/-- Reading a page changes nothing that the tree sees. -/
theorem Reads.post_load (h : t.Reads t.store) (n : Nat) :
    Exec.Post (PyTree.load n) t (fun _ t' => t'.Reads t'.store ∧ t'.store = t.store)
      fun _ t' => t'.Reads t'.store ∧ t'.store = t.store := by
  have hsame : ∀ {u : PyTree}, u.Reads t.store → u.Reads u.store ∧ u.store = t.store := fun hu => by
    have he := hu.eq_store rfl
    exact ⟨he ▸ hu, he.symm⟩
  by_cases hn : t.store.numPages ≤ n ∧ n ≠ 0
  · rw [Exec.Post, h.load_out hn]
    exact ⟨h, rfl⟩
  · exact (h.load hn (by simp)).mono (fun _ _ hr => hsame hr.2) fun _ _ hr => hsame hr.2

/-- Another state of the pager with the same pool and pages. -/
theorem Reads.pager (h : t.Reads t.store) {p : Pager} (hl : p.Live) (hc : p.Clean) (hcached : ∀ n, p.cached n = t.pager.cached n)
    (hcontent : ∀ n, p.content n = t.pager.content n) (hnum : p.numPages = t.pager.numPages) (hid : t.pager.nextId ≤ p.nextId) :
    Reads ⟨p, t.ncache⟩ (PyTree.store ⟨p, t.ncache⟩) ∧ PyTree.store ⟨p, t.ncache⟩ = t.store := by
  have hstore : PyTree.store ⟨p, t.ncache⟩ = t.store := by
    rw [PyTree.store, PyTree.store, funext hcontent, hnum]
  refine ⟨?_, hstore⟩
  rw [hstore]
  exact ⟨hl, hc, hnum.symm, fun n => by rw [h.nodes, hcontent],
    Loaded.pager (t := t) h.loaded hid hnum.ge,
    fun n im nd hn hst im' hc' => h.hit n im nd hn hst im' (hcached n ▸ hc')⟩

/-! ### A tree of one cell -/

section Single

variable {t₁ : PyTree} {key : Int} {v w : Bytes} {link : Option Nat} {fuel : Nat}

/-- A node that was loaded is in the cache with its image. -/
theorem lookup_load {t' : PyTree} {n : Nat} {nd : PyNode} (hl : t.pager.Live) (h : load n t = .ok nd t') :
    ∃ im im', t'.pager.cached n = some im ∧ t'.ncache.lookup n = some (im', nd) ∧ im'.id = im.id ∧
      ∀ im₀, t.pager.cached n = some im₀ → im = im₀ := by
  rw [load] at h
  cases hget : t.pager.get n with
  | error e =>
    rw [hget] at h
    cases h
  | ok r =>
    obtain ⟨data, pager⟩ := r
    have hf := Pager.fetches_get_live hl hget
    have hsame : ∀ im₀, t.pager.cached n = some im₀ → data = im₀ := fun im₀ h₀ => by
      rcases hf.source with hs | ⟨hs, -⟩
      · exact Option.some.inj (hs.symm.trans h₀)
      · cases hs.symm.trans h₀
    rw [hget] at h
    simp only at h
    cases hh : t.hit n data with
    | some nd' =>
      simp only [hh] at h
      cases h
      rw [hit] at hh
      split at hh
      · rename_i image nd' hk
        split at hh
        · obtain rfl := Option.some.inj hh
          exact ⟨data, image, hf.fetched, hk, ‹_›, hsame⟩
        · cases hh
      · cases hh
    | none =>
      simp only [hh] at h
      cases hd : nodeFromBytes data.bytes with
      | error e =>
        rw [hd] at h
        cases h
      | ok nd' =>
        rw [hd] at h
        cases h
        exact ⟨data, data, hf.fetched, AList.lookup_insert _, rfl, hsame⟩

theorem legal_single (root : Nat) (hk : IsI64 key) (hv : v.length ≤ 2048) : Tree.Legal ⟨0, PT.leaf root [(key, v)] noPage⟩ := by
  have hmax : v.length ≤ maxValueSize := hv.trans (by decide)
  refine PT.fits_leaf.2 ⟨⟨by decide, by simpa using ⟨hk, hmax⟩⟩, ?_⟩
  change 9 + (12 + v.length + 0) ≤ 4096
  omega

/-- A tree whose root is a leaf with one cell. -/
theorem sound_single {s : Store (Option Nat)} (hk : IsI64 key) (hv : v.length ≤ 2048) (hnode : s.nodes root = .ok (.leaf [(key, v)] none))
    (hin : 0 < root ∧ root < s.numPages) (hst : s.stale = []) : SoundTree s root ⟨0, PT.leaf root [(key, v)] noPage⟩ := by
  have hgood : Good False s none none [] [PT.leaf root [(key, v)] noPage] :=
    good_leaf (by simp [Ascending]) (by simp [InRange]) (by simp) hnode hin
  exact ⟨⟨hgood, rfl⟩, rfl, hst, legal_single root hk hv, trivial⟩

theorem bisectLeft_single (key : Int) : bisectLeft [key] key = 0 :=
  bisectLeft_append (l := []) (by simp) (by simp)

/-- An insertion of the key of a tree of one cell. -/
theorem insert_single (hload : load root t = .ok (.leaf [(key, v)] link) t₁) (hw : w.length ≤ maxValueSize) :
    Exec.Post (BTree.insert (fuel + 1) root key w).exec t (fun _ _ => False) fun e t' => e = .duplicateKey key ∧ t' = t₁ := by
  rw [BTree.insert, if_neg (not_lt.2 hw), TreeM.post_bind, BTree.insertRec, TreeM.post_bind, TreeM.post_loadNode hload]
  simp only [List.map_cons, List.map_nil, bisectLeft_single, List.getElem?_cons_zero, Option.any_some, decide_true, if_true]
  exact ⟨rfl, rfl⟩

/-- The loop of `upsert` writes the leaf. -/
theorem overwrite_single (hload : load root t = .ok (.leaf [(key, v)] link) t₁) :
    Exec.Post (BTree.overwrite root key w (fuel + 1) root).exec t
      (fun _ t' => ∃ data, t₁.pager.write root data = .ok t'.pager) fun _ _ => True := by
  rw [BTree.overwrite, TreeM.post_bind, TreeM.post_loadNode hload]
  simp only [List.map_cons, List.map_nil, bisectLeft_single, at?, List.getElem?_cons_zero, List.set_cons_zero]
  change Exec.Post (TreeM.exec (TreeM.mutate root _ (TreeM.write root _ (TreeM.pure root)))) t₁ _ _
  rw [Exec.Post, TreeM.exec, TreeM.exec]
  cases hx : write root (.leaf [(key, w)] link) (t₁.mutate root (.leaf [(key, w)] link)) with
  | error e t' => trivial
  | ok u t' =>
    simp only
    rw [TreeM.exec]
    rw [PyTree.write] at hx
    split at hx
    · cases hx
    rename_i data _
    split at hx
    · cases hx
    rename_i p hw
    cases hx
    rw [pager_mutate] at hw
    exact ⟨data, hw⟩

/-- A page with a sound tree is loaded, and what the open transaction shadows stays. -/
theorem Holds.load_single (h : Holds t root ⟨0, PT.leaf root [(key, v)] noPage⟩) :
    ∃ t₁, load root t = .ok (.leaf [(key, v)] none) t₁ ∧ Holds t₁ root ⟨0, PT.leaf root [(key, v)] noPage⟩ ∧
      t₁.store = t.store ∧ t₁.pager.shadow = t.pager.shadow ∧ t₁.pager.touched = t.pager.touched := by
  have hnode : t.store.nodes root = .ok (.leaf [(key, v)] none) := h.sound.tree.on _ (PT.node_mem _)
  have hin : root < t.store.numPages := (h.sound.tree.good.range root (by simp [PT.pagesL])).2
  have hload := h.reads.load (n := root) (by omega) (by simp [PyTree.store])
  have hkeeps := post_load (t := t) (n := root)
    (Q := fun p => p.shadow = t.pager.shadow ∧ p.touched = t.pager.touched) ⟨rfl, rfl⟩ fun im p hg =>
      have hf := Pager.fetches_get_live h.reads.live hg
      ⟨hf.shadow_eq, hf.touched_eq⟩
  rcases hx : load root t with ⟨nd, t₁⟩ | ⟨e, t₁⟩
  · obtain ⟨hnd, hr⟩ := hload.of_ok hx
    obtain rfl := Except.ok.inj (hnode.symm.trans hnd)
    exact ⟨t₁, rfl, .of_run h.sound hr, (hr.eq_store rfl).symm, hkeeps.of_ok hx⟩
  · cases (hload.of_error hx).1.symm.trans hnode

theorem replace_single : Tree.replace key w ⟨0, PT.leaf root [(key, v)] noPage⟩ = ⟨0, PT.leaf root [(key, w)] noPage⟩ := by
  change Sigma.mk 0 (PT.leaf root ([(key, v)].set (bisectLeft [key] key) (key, w)) noPage) = _
  rw [bisectLeft_single]
  rfl

/-- The first overwriting in a transaction shadows the page of the leaf, with another image than the one it writes. -/
theorem Holds.upsert_single (h : Holds t root ⟨0, PT.leaf root [(key, v)] noPage⟩) (hk : IsI64 key) (hw : w.length ≤ 2048)
    (hin : t.pager.touched.isSome) (hnone : ∀ n, t.pager.shadow.lookup n = none) :
    ∃ t' im', t.call root (.upsert key w) = some (.done, t', root) ∧ t'.pager.numPages = t.pager.numPages ∧
      Holds t' root ⟨0, PT.leaf root [(key, w)] noPage⟩ ∧ t'.pager.cached root = some im' ∧
      ∀ n im, t'.pager.shadow.lookup n = some (some im) → n = root ∧ im.id ≠ im'.id := by
  have hmax : w.length ≤ maxValueSize := hw.trans (by decide)
  have hlegal : (Tree.replace key w ⟨0, PT.leaf root [(key, v)] noPage⟩).Legal := by
    rw [replace_single]
    exact legal_single root hk hw
  obtain ⟨t', hcall, hh, hnum⟩ := h.call_upsert hmax ⟨v, by simp [Tree.cells]⟩ hlegal
  rw [replace_single] at hh
  obtain ⟨t₁, hload₁, h₁, hstore₁, hshadow₁, htouched₁⟩ := h.load_single
  obtain ⟨t₂, hload₂, h₂, -, hshadow₂, htouched₂⟩ := h₁.load_single
  obtain ⟨k, hk⟩ : ∃ k, t.pager.numPages = k + 1 := ⟨_, (Nat.succ_pred_eq_of_pos h.reads.live.numPages_pos).symm⟩
  have hover : ∃ r, (BTree.overwrite root key w (k + 1) root).exec t₁ = .ok r t' := by
    have hcall := hcall
    have hins : Exec.Post (BTree.insert (k + 1) root key w).exec t _ _ := insert_single hload₁ hmax
    rw [PyTree.call, PyTree.upsert, PyTree.insert, hk] at hcall
    rcases hx : (BTree.insert (k + 1) root key w).exec t with ⟨r, u⟩ | ⟨e, u⟩
    · exact (hins.of_ok hx).elim
    obtain ⟨rfl, rfl⟩ := hins.of_error hx
    have hnum₁ : u.pager.numPages = k + 1 := (congrArg Store.numPages hstore₁).trans hk
    rw [hx] at hcall
    dsimp only at hcall
    rw [hnum₁] at hcall
    obtain ⟨r, hover, -⟩ := (reply_eq_some hcall).resolve_right (by rintro ⟨-, -, h, -⟩; cases h)
    exact ⟨r, hover⟩
  obtain ⟨r, hover⟩ := hover
  obtain ⟨data, hwrite⟩ := (overwrite_single hload₂).of_ok hover
  obtain ⟨hst, -⟩ := h₂.reads.live.write hwrite
  have hsh : ∀ n, t₂.pager.shadow.lookup n = none := fun n => by rw [hshadow₂, hshadow₁, hnone]
  refine ⟨t', _, hcall, hnum, hh, hst.stored, fun n im hs => ?_⟩
  -- the leaf is in the pool when it is written
  have hother : n = root := by
    by_contra hn
    have hold := (hst.shadow_other n (.inl hn)).symm.trans hs
    cases (hsh n).symm.trans hold
  subst hother
  obtain ⟨c, -, hc, -⟩ := lookup_load h₁.reads.live hload₂
  have htouched : t₂.pager.touched.isSome := by rw [htouched₂, htouched₁]; exact hin
  have hnew := (hst.shadow_cached htouched (AList.lookup_eq_none.1 (hsh n)) c hc).symm.trans hs
  obtain rfl := Option.some.inj (Option.some.inj hnew)
  exact ⟨rfl, (h₂.reads.live.cached_id n c hc).ne⟩

end Single

end PyTree

end LeafDb
