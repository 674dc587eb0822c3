import LeafDb.NodeCodec
import LeafDb.PagerCache
import LeafDb.PyTree
import LeafDb.TreeInsert

/-!
# The node cache shows the pages

`TreeM.run` works on decoded pages and fails when it loads a page whose node was changed and not yet written. The
Python engine has a cache of decoded nodes instead, with an entry for the very image it was decoded from
(`PyTree.load`). `Reads t s` relates the two: the pages of `s` are the decoded pages of the pager, and an entry of
the cache that `load` would return is the node of its page, unless the page is one of `s.stale`. Every page program
keeps it (`does_exec`), so what `run` says of a program that loads no such page holds of the engine.
-/

namespace LeafDb

/-- A page as it is decoded after `to_bytes` and padding. -/
theorem nodeFromBytes_toBytes {nd : PyNode} {data : Bytes} (h : nd.toBytes = .ok data) :
    nodeFromBytes (padTo pageSize data) = .ok nd.reread := by
  unfold Node.toBytes at h
  split at h
  · rename_i hp
    obtain rfl := Except.ok.inj h
    rw [padTo, nodeFromBytes_encode hp]
    rcases nd with ⟨cells, next⟩ | ⟨keys, children⟩ <;> rfl
  · cases h

theorem fits_of_toBytes {nd : PyNode} {data : Bytes} (h : nd.toBytes = .ok data) :
    nd.fits = if pageSize < data.length then .error .valueError else .ok () := by
  rw [Node.fits, h]
  rfl

theorem nodeFromBytes_emptyPage : nodeFromBytes emptyPage.bytes = .ok (.leaf [] (some 0)) := by
  have hempty : emptyPage.bytes = (Node.leaf [] (some 0) : PyNode).encode ++ List.replicate 4087 0 := by
    show List.replicate (9 + 4087) 0 = _
    rw [List.replicate_add]
    congr 1
  rw [hempty, nodeFromBytes_encode (by decide)]
  rfl

namespace PyTree

variable {t : PyTree} {s : Store (Option Nat)} {n : Nat} {nd : PyNode}

/-- The store `s` has the decoded pages of the pager, and no entry of the node cache shows anything else. -/
structure Reads (t : PyTree) (s : Store (Option Nat)) : Prop where
  live : t.pager.Live
  clean : t.pager.Clean
  numPages : s.numPages = t.pager.numPages
  nodes : ∀ n, s.nodes n = nodeFromBytes (t.pager.content n)
  /-- What is in the cache was loaded once. -/
  loaded : ∀ n im nd, t.ncache.lookup n = some (im, nd) → im.id < t.pager.nextId ∧ n < t.pager.numPages
  hit : ∀ n im nd, t.ncache.lookup n = some (im, nd) → n ∉ s.stale → ∀ im', t.pager.cached n = some im' → im.id = im'.id →
    s.nodes n = .ok nd

/-- A `BTree` object without cached nodes. -/
theorem reads_empty {p : Pager} (hl : p.Live) (hc : p.Clean) :
    Reads ⟨p, ∅⟩ ⟨fun n => nodeFromBytes (p.content n), p.numPages, []⟩ :=
  ⟨hl, hc, rfl, fun _ => rfl, fun n im nd h => by simp at h, fun n im nd h => by simp at h⟩

/-! ### The accesses -/

theorem Reads.load_out (h : t.Reads s) (hn : s.numPages ≤ n ∧ n ≠ 0) : load n t = .error .indexError t := by
  rw [load, Pager.get, if_pos (h.numPages ▸ hn)]

/-- The pager after a `get`. -/
theorem Reads.get (h : t.Reads s) {im : Image} {p : Pager} (hf : Pager.Fetches t.pager p n im) :
    Reads ⟨p, t.ncache⟩ s where
  live := hf.live h.live
  clean := hf.clean h.clean
  numPages := h.numPages.trans hf.numPages_eq.symm
  nodes k := by
    rw [h.nodes k, hf.content_eq fun im' hd => hd.2.2.2 (h.clean k im' hd.1 hd.2.2.1)]
  loaded k im' nd hk := by
    obtain ⟨hid, hlt⟩ := h.loaded k im' nd hk
    exact ⟨hid.trans_le hf.nextId_le, hlt.trans_eq hf.numPages_eq.symm⟩
  hit k im' nd hk hst im'' hc hid := by
    by_cases hkn : k = n
    · subst hkn
      obtain rfl : im = im'' := Option.some.inj (hf.fetched.symm.trans hc)
      rcases hf.source with hs | ⟨-, -, hnew⟩
      · exact h.hit k im' nd hk hst im hs hid
      · -- a new image has a number that no entry has
        exact absurd (h.loaded k im' nd hk).1 (by omega)
    · exact h.hit k im' nd hk hst im'' (hf.kept k im'' hkn hc) hid

/-- A node that was decoded enters the cache. -/
theorem Reads.insert (h : t.Reads s) {im : Image} (hc : t.pager.cached n = some im) (hn : n < t.pager.numPages)
    (hnd : s.nodes n = .ok nd) {cache : AList fun _ : Nat => Image × PyNode}
    (hcache : ∀ k e, cache.lookup k = some e → t.ncache.lookup k = some e) : Reads ⟨t.pager, cache.insert n (im, nd)⟩ s where
  live := h.live
  clean := h.clean
  numPages := h.numPages
  nodes := h.nodes
  loaded k im' nd' hk := by
    change (cache.insert n (im, nd)).lookup k = some (im', nd') at hk
    by_cases hkn : k = n
    · rw [hkn, AList.lookup_insert] at hk
      cases hk
      rw [hkn]
      exact ⟨h.live.cached_id n im hc, hn⟩
    · rw [AList.lookup_insert_ne hkn] at hk
      exact h.loaded k im' nd' (hcache k _ hk)
  hit k im' nd' hk hst im'' hc' hid := by
    change (cache.insert n (im, nd)).lookup k = some (im', nd') at hk
    by_cases hkn : k = n
    · rw [hkn, AList.lookup_insert] at hk
      cases hk
      rw [hkn]
      exact hnd
    · rw [AList.lookup_insert_ne hkn] at hk
      exact h.hit k im' nd' (hcache k _ hk) hst im'' hc' hid

/-- A page without unwritten changes is loaded as the store has it. -/
theorem Reads.load (h : t.Reads s) (hn : ¬(s.numPages ≤ n ∧ n ≠ 0)) (hst : n ∉ s.stale) :
    Exec.Post (load n) t (fun nd t' => s.nodes n = .ok nd ∧ t'.Reads s) fun e t' => s.nodes n = .error e ∧ t'.Reads s := by
  obtain ⟨im, p, hg⟩ : ∃ im p, t.pager.get n = .ok (im, p) := by
    rw [Pager.get, if_neg (h.numPages ▸ hn)]
    split <;> exact ⟨_, _, rfl⟩
  have hf := Pager.fetches_get_live h.live hg
  have h' := h.get hf
  have hbytes : s.nodes n = nodeFromBytes im.bytes := by rw [h.nodes n, hf.bytes_eq]
  have hlt : n < p.numPages := by
    have hpos : 0 < p.numPages := h'.live.numPages_pos
    have hnum : s.numPages = p.numPages := h'.numPages
    omega
  rw [Exec.Post, PyTree.load, hg]
  simp only
  cases hh : t.hit n im with
  | some nd =>
    refine ⟨?_, h'⟩
    rw [PyTree.hit] at hh
    split at hh
    · rename_i image nd' hk
      split at hh
      · rename_i hid
        obtain rfl := Option.some.inj hh
        exact h'.hit n image nd' hk hst im hf.fetched hid
      · cases hh
    · cases hh
  | none =>
    rcases hd : nodeFromBytes im.bytes with e | nd
    · exact ⟨hbytes.trans hd, h'⟩
    · refine ⟨hbytes.trans hd, h'.insert hf.fetched hlt (hbytes.trans hd) fun k e hk => ?_⟩
      split at hk
      · simp at hk
      · exact hk

/-- A change of a decoded node is not seen before the page is written. -/
theorem Reads.mutate (h : t.Reads s) (n : Nat) (nd : PyNode) : (t.mutate n nd).Reads { s with stale := n :: s.stale } := by
  rw [PyTree.mutate]
  split
  swap
  · exact ⟨h.live, h.clean, h.numPages, h.nodes, h.loaded,
      fun k im nd' hk hst => h.hit k im nd' hk fun hk => hst (List.mem_cons_of_mem _ hk)⟩
  rename_i image nd₀ hn
  refine ⟨h.live, h.clean, h.numPages, h.nodes, fun k im nd' hk => ?_, fun k im nd' hk hst => ?_⟩ <;>
    change (t.ncache.insert n (image, nd)).lookup k = some (im, nd') at hk
  · by_cases hkn : k = n
    · rw [hkn, AList.lookup_insert] at hk
      cases hk
      rw [hkn]
      exact h.loaded n image nd₀ hn
    · rw [AList.lookup_insert_ne hkn] at hk
      exact h.loaded k im nd' hk
  · obtain ⟨hkn, hst⟩ := not_or.1 fun hk => hst (List.mem_cons.2 hk)
    rw [AList.lookup_insert_ne hkn] at hk
    exact h.hit k im nd' hk hst

/-- Page `n` gets an image that no entry of the cache for it was decoded from. -/
theorem Reads.store (h : t.Reads s) {p q : Pager} {im : Image} (hs : Pager.Stores q p n im) (hl : p.Live) (hclean : q.Clean)
    (hcontent : q.content = t.pager.content) (hcached : q.cached = t.pager.cached) (hnum : max q.numPages (n + 1) = max s.numPages (n + 1))
    (hid : t.pager.nextId ≤ q.nextId) (hnew : ∀ im' nd', t.ncache.lookup n = some (im', nd') → im'.id ≠ im.id)
    (hnd : nodeFromBytes im.bytes = .ok nd) :
    Reads ⟨p, t.ncache⟩ ⟨Function.update s.nodes n (.ok nd), max s.numPages (n + 1), s.stale.filter (· ≠ n)⟩ where
  live := hl
  clean := hs.clean hclean
  numPages := hnum.symm.trans hs.numPages_eq.symm
  nodes k := by
    change Function.update s.nodes n (.ok nd) k = nodeFromBytes (p.content k)
    by_cases hk : k = n
    · subst hk
      rw [Function.update_self, hs.content_self, hnd]
    · rw [Function.update_of_ne hk, hs.content_other hclean hk, hcontent, h.nodes]
  loaded k im' nd' hk := by
    obtain ⟨hid', hlt⟩ := h.loaded k im' nd' hk
    refine ⟨hid'.trans_le (hid.trans hs.nextId_le), ?_⟩
    rw [hs.numPages_eq, hnum, h.numPages]
    exact hlt.trans_le (le_max_left _ _)
  hit k im' nd' hk hst im'' hc hid' := by
    by_cases hkn : k = n
    · subst hkn
      obtain rfl : im = im'' := Option.some.inj (hs.stored.symm.trans hc)
      exact absurd hid' (hnew im' nd' hk)
    · refine (Function.update_of_ne hkn ..).trans ?_
      refine h.hit k im' nd' hk (fun hm => hst (List.mem_filter.2 ⟨hm, by simpa using hkn⟩)) im'' ?_ hid'
      rw [← hcached]
      exact hs.kept k im'' hkn hc

/-- A page that can be written is written, else nothing happens. -/
theorem Reads.write (h : t.Reads s) (n : Nat) (nd : PyNode) :
    Exec.Post (write n nd) t (fun _ t' => nd.fits = .ok () ∧ t'.Reads (s.set n nd)) fun e t' => nd.fits = .error e ∧ t' = t := by
  rw [Exec.Post, PyTree.write]
  rcases hb : nd.toBytes with e | data
  · exact ⟨by rw [Node.fits, hb]; rfl, rfl⟩
  have hfits := fits_of_toBytes hb
  simp only
  by_cases hlen : pageSize < data.length
  · rw [Pager.write, if_pos hlen]
    exact ⟨hfits.trans (if_pos hlen), rfl⟩
  obtain ⟨p, hw⟩ : ∃ p, t.pager.write n data = .ok p := by
    rw [Pager.write, if_neg hlen]
    exact ⟨_, rfl⟩
  obtain ⟨hs, hl⟩ := h.live.write hw
  rw [hw]
  refine ⟨hfits.trans (if_neg hlen), ?_⟩
  exact h.store hs hl h.clean rfl rfl (by rw [h.numPages]; rfl) (Nat.le_succ _)
    (fun im' nd' hk => (h.loaded n im' nd' hk).1.ne) (nodeFromBytes_toBytes hb)

/-- A new page has no entry in the cache. -/
theorem Reads.allocate (h : t.Reads s) :
    t.pager.allocate.1 = s.numPages ∧ Reads { t with pager := t.pager.allocate.2 } s.grow := by
  obtain ⟨hs, hl⟩ := h.live.allocate
  refine ⟨h.numPages.symm, ?_⟩
  have hgrow : s.grow = ⟨Function.update s.nodes t.pager.numPages (.ok (.leaf [] (some 0))),
      max s.numPages (t.pager.numPages + 1), s.stale.filter (· ≠ t.pager.numPages)⟩ := by
    rw [Store.grow, h.numPages, max_eq_right (Nat.le_succ _)]
    rfl
  rw [hgrow]
  refine h.store hs hl h.clean rfl rfl ?_ le_rfl (fun im' nd' hk => ?_) nodeFromBytes_emptyPage
  · rw [h.numPages]
    exact (max_self _).trans (max_eq_right (Nat.le_succ _)).symm
  · exact absurd (h.loaded _ im' nd' hk).2 (lt_irrefl _)

end PyTree

/-! ### Page programs -/

/-- A program does on the Python engine what it does on the decoded pages, unless it loads a changed page. -/
theorem does_exec {α : Type} (x : TreeM (Option Nat) α) {t : PyTree} {s : Store (Option Nat)} (h : t.Reads s) :
    Does x s (fun a s' => ∃ t', x.exec t = .ok a t' ∧ t'.Reads s')
      fun f s' => ∀ e, f = .raised e → ∃ t', x.exec t = .error e t' ∧ t'.Reads s' := by
  induction x generalizing t s with
  | pure a => exact ⟨t, rfl, h⟩
  | fail e =>
    intro e' he
    cases he
    exact ⟨t, rfl, h⟩
  | load n k ih =>
    by_cases hst : n ∈ s.stale
    · have hrun : (TreeM.load n k).run s = .error .stale s := by rw [TreeM.run, if_pos hst]
      rw [Does, Exec.Post, hrun]
      intro e he
      cases he
    by_cases hn : s.numPages ≤ n ∧ n ≠ 0
    · have hrun : (TreeM.load n k).run s = .error (.raised .indexError) s := by rw [TreeM.run, if_neg hst, if_pos hn]
      rw [Does, Exec.Post, hrun]
      intro e he
      cases he
      exact ⟨t, by rw [TreeM.exec, h.load_out hn], h⟩
    have hload := h.load hn hst
    rcases hx : PyTree.load n t with ⟨nd, t'⟩ | ⟨e, t'⟩
    · obtain ⟨hnd, h'⟩ := hload.of_ok hx
      have hrun : (TreeM.load n k).run s = (k nd).run s := by rw [TreeM.run, if_neg hst, if_neg hn, hnd]
      have hexec : (TreeM.load n k).exec t = (k nd).exec t' := by rw [TreeM.exec, hx]
      rw [Does, Exec.Post, hrun, hexec]
      exact ih nd h'
    · obtain ⟨hnd, h'⟩ := hload.of_error hx
      have hrun : (TreeM.load n k).run s = .error (.raised e) s := by rw [TreeM.run, if_neg hst, if_neg hn, hnd]
      rw [Does, Exec.Post, hrun]
      intro e' he
      cases he
      exact ⟨t', by rw [TreeM.exec, hx], h'⟩
  | mutate n nd k ih => exact ih (h.mutate n nd)
  | write n nd k ih =>
    have hwrite := h.write n nd
    rcases hx : PyTree.write n nd t with ⟨u, t'⟩ | ⟨e, t'⟩
    · obtain ⟨hfits, h'⟩ := hwrite.of_ok hx
      have := ih h'
      rw [Does, Exec.Post, TreeM.run, hfits, TreeM.exec, hx]
      exact this
    · obtain ⟨hfits, rfl⟩ := hwrite.of_error hx
      rw [Does, Exec.Post, TreeM.run, hfits, TreeM.exec, hx]
      intro e' he
      cases he
      exact ⟨_, rfl, h⟩
  | allocate k ih =>
    obtain ⟨hn, h'⟩ := h.allocate
    have := ih s.numPages h'
    rw [Does, Exec.Post, TreeM.run, TreeM.exec, hn]
    exact this

namespace PyTree

variable {α : Type} {x : TreeM (Option Nat) α} {t t' : PyTree} {s : Store (Option Nat)} {a : α}

/-- The decoded pages of the pager. -/
def store (t : PyTree) : Store (Option Nat) := ⟨fun n => nodeFromBytes (t.pager.content n), t.pager.numPages, []⟩

@[simp] theorem numPages_store (t : PyTree) : t.store.numPages = t.pager.numPages := rfl

@[simp] theorem stale_store (t : PyTree) : t.store.stale = [] := rfl

/-- There is one store without unwritten changes to read. -/
theorem Reads.eq_store (h : t.Reads s) (hst : s.stale = []) : s = t.store := by
  obtain ⟨nodes, numPages, stale⟩ := s
  obtain rfl : stale = [] := hst
  obtain rfl : nodes = _ := funext h.nodes
  obtain rfl : numPages = _ := h.numPages
  rfl

/-- A new `BTree` object. -/
theorem reads_new {p : Pager} (hl : p.Live) (hc : p.Clean) : Reads ⟨p, ∅⟩ (store ⟨p, ∅⟩) := reads_empty hl hc

section Transfer

variable {Q : α → Store (Option Nat) → Prop} {E : Failure → Store (Option Nat) → Prop}

/-- What is done on the decoded pages is done on the engine. -/
theorem Reads.exec_ok (h : t.Reads s) {s' : Store (Option Nat)} (hrun : x.run s = .ok a s') :
    ∃ t', x.exec t = .ok a t' ∧ t'.Reads s' := (does_exec x h).of_ok hrun

/-- A program that returns on the engine returns on the decoded pages, if it loads no changed page there. -/
theorem Reads.run_ok (h : t.Reads s) (hd : Does x s Q E) (hE : ∀ s', ¬E .stale s') (hx : x.exec t = .ok a t') :
    ∃ s', x.run s = .ok a s' ∧ t'.Reads s' := by
  have hsim := does_exec x h
  rcases hrun : x.run s with ⟨b, s'⟩ | ⟨f, s'⟩
  · obtain ⟨u, hu, hr⟩ := hsim.of_ok hrun
    cases hx.symm.trans hu
    exact ⟨s', rfl, hr⟩
  · cases f with
    | stale => exact absurd (hd.of_error hrun) (hE s')
    | raised e =>
      obtain ⟨u, hu, -⟩ := hsim.of_error hrun e rfl
      cases hx.symm.trans hu

/-- The same for a program that raises. -/
theorem Reads.run_error (h : t.Reads s) (hd : Does x s Q E) (hE : ∀ s', ¬E .stale s') {e : PyError} (hx : x.exec t = .error e t') :
    ∃ s', x.run s = .error (.raised e) s' ∧ E (.raised e) s' ∧ t'.Reads s' := by
  have hsim := does_exec x h
  rcases hrun : x.run s with ⟨b, s'⟩ | ⟨f, s'⟩
  · obtain ⟨u, hu, -⟩ := hsim.of_ok hrun
    cases hx.symm.trans hu
  · cases f with
    | stale => exact absurd (hd.of_error hrun) (hE s')
    | raised e' =>
      obtain ⟨u, hu, hr⟩ := hsim.of_error hrun e' rfl
      cases hx.symm.trans hu
      exact ⟨s', rfl, hd.of_error hrun, hr⟩

/-- A program that cannot fail returns. -/
theorem Reads.exec_total (h : t.Reads s) (hd : Does x s Q fun _ _ => False) : ∃ a t' s', x.exec t = .ok a t' ∧ Q a s' ∧ t'.Reads s' := by
  rcases hrun : x.run s with ⟨b, s'⟩ | ⟨f, s'⟩
  · obtain ⟨t', ht', hr⟩ := h.exec_ok hrun
    exact ⟨b, t', s', ht', hd.of_ok hrun, hr⟩
  · exact (hd.of_error hrun).elim

end Transfer

end PyTree

end LeafDb
