import LeafDb.Pager

/-!
# What the pager's operations do to the pages

`content p n` is the image of page `n` a reader of `p` gets; `base p n` is the image it had when the
open transaction began (outside a transaction the two agree). `WF` is what holds of every pager the
source can build; `Clean` says that the file has every page of the pool that is not dirty. Eviction is
described by `Evicts`, which leaves open how many pages went: a page that left the pool was written to
the file if it was dirty and just dropped if it was not.
-/

namespace LeafDb.Pager

/-- The image of page `n` in the pool. -/
def cached (p : Pager) (n : Nat) : Option Image := p.pool.pages.lookup n

/-- The image of page `n` that `get` returns. -/
def content (p : Pager) (n : Nat) : Bytes :=
  match p.cached n with
  | some im => im.bytes
  | none => readPage p.file n

/-- The image page `n` had when the open transaction began. -/
def base (p : Pager) (n : Nat) : Bytes :=
  match p.shadow.lookup n with
  | some (some im) => im.bytes
  | some none => readPage p.file n
  | none => p.content n

structure WF (p : Pager) : Prop where
  cached_length : ∀ n im, p.cached n = some im → im.bytes.length = pageSize
  cached_id : ∀ n im, p.cached n = some im → im.id < p.nextId
  shadow_length : ∀ n im, p.shadow.lookup n = some (some im) → im.bytes.length = pageSize
  shadow_id : ∀ n im, p.shadow.lookup n = some (some im) → im.id < p.nextId
  dirty_cached : ∀ n ∈ p.pool.dirty, (p.cached n).isSome
  shadow_touched : ∀ n, n ∈ p.shadow ↔ n ∈ p.touched.getD []
  touched_dirty : ∀ n ∈ p.touched.getD [], n ∈ p.pool.dirty
  nextId_pos : 0 < p.nextId
  numPages_pos : 0 < p.numPages

/-- What is left of `WF` when the pool may be flushed within a transaction: the touched pages stay in the pool. -/
structure Live (p : Pager) : Prop where
  cached_length : ∀ n im, p.cached n = some im → im.bytes.length = pageSize
  cached_id : ∀ n im, p.cached n = some im → im.id < p.nextId
  shadow_length : ∀ n im, p.shadow.lookup n = some (some im) → im.bytes.length = pageSize
  shadow_id : ∀ n im, p.shadow.lookup n = some (some im) → im.id < p.nextId
  dirty_cached : ∀ n ∈ p.pool.dirty, (p.cached n).isSome
  shadow_touched : ∀ n, n ∈ p.shadow ↔ n ∈ p.touched.getD []
  touched_cached : ∀ n ∈ p.touched.getD [], (p.cached n).isSome
  nextId_pos : 0 < p.nextId
  numPages_pos : 0 < p.numPages

theorem WF.live {p : Pager} (h : p.WF) : p.Live :=
  ⟨h.cached_length, h.cached_id, h.shadow_length, h.shadow_id, h.dirty_cached, h.shadow_touched,
    fun n hn => h.dirty_cached n (h.touched_dirty n hn), h.nextId_pos, h.numPages_pos⟩

theorem Live.wf {p : Pager} (h : p.Live) (hd : ∀ n ∈ p.touched.getD [], n ∈ p.pool.dirty) : p.WF :=
  ⟨h.cached_length, h.cached_id, h.shadow_length, h.shadow_id, h.dirty_cached, h.shadow_touched, hd, h.nextId_pos,
    h.numPages_pos⟩

/-- The file has every page of the pool that is not dirty. -/
def Clean (p : Pager) : Prop :=
  ∀ n im, p.cached n = some im → n ∉ p.pool.dirty → readPage p.file n = im.bytes

theorem content_of_cached {p : Pager} {n : Nat} {im : Image} (h : p.cached n = some im) :
    p.content n = im.bytes := by
  simp [content, h]

theorem content_of_not_cached {p : Pager} {n : Nat} (h : p.cached n = none) :
    p.content n = readPage p.file n := by
  simp [content, h]

theorem Live.length_content {p : Pager} (h : p.Live) (n : Nat) : (p.content n).length = pageSize := by
  cases hc : p.cached n with
  | none => rw [content_of_not_cached hc, length_readPage]
  | some im => rw [content_of_cached hc]; exact h.cached_length n im hc

theorem WF.length_content {p : Pager} (h : p.WF) (n : Nat) : (p.content n).length = pageSize := h.live.length_content n

theorem WF.shadow_eq_empty {p : Pager} (h : p.WF) (ht : p.touched = none) (n : Nat) :
    p.shadow.lookup n = none := by
  rw [AList.lookup_eq_none, h.shadow_touched, ht]
  simp

theorem WF.base_eq_content {p : Pager} (h : p.WF) (ht : p.touched = none) (n : Nat) :
    p.base n = p.content n := by
  simp [base, h.shadow_eq_empty ht]

theorem wf_openFile (file : Bytes) (c : Nat) (hc : 0 < c) : (openFile file c hc).WF := by
  constructor <;> intros <;> simp_all [openFile, cached]

theorem cached_openFile (file : Bytes) (c : Nat) (hc : 0 < c) (n : Nat) : (openFile file c hc).cached n = none := by
  simp [openFile, cached]

/-! ### Eviction -/

/-- `p'` is `p` after some pages left the pool. -/
structure Evicts (p p' : Pager) : Prop where
  kept : ∀ n im, p'.cached n = some im → p.cached n = some im
  read_kept : ∀ n, p.cached n = none ∨ (p'.cached n).isSome → readPage p'.file n = readPage p.file n
  read_dirty : ∀ n im, p.cached n = some im → p'.cached n = none → n ∈ p.pool.dirty →
    readPage p'.file n = im.bytes
  read_clean : ∀ n, n ∉ p.pool.dirty → readPage p'.file n = readPage p.file n
  dirty_iff : ∀ n, n ∈ p'.pool.dirty ↔ n ∈ p.pool.dirty ∧ (p'.cached n).isSome
  capacity_eq : p'.pool.capacity = p.pool.capacity
  numPages_eq : p'.numPages = p.numPages
  touched_eq : p'.touched = p.touched
  shadow_eq : p'.shadow = p.shadow
  nextId_eq : p'.nextId = p.nextId

theorem Evicts.refl {p : Pager} (h : p.Live) : Evicts p p where
  kept _ _ h := h
  read_kept _ _ := rfl
  read_dirty n im h1 h2 := by simp [h1] at h2
  read_clean _ _ := rfl
  dirty_iff n := ⟨fun hn => ⟨hn, h.dirty_cached n hn⟩, And.left⟩
  capacity_eq := rfl
  numPages_eq := rfl
  touched_eq := rfl
  shadow_eq := rfl
  nextId_eq := rfl

theorem Evicts.trans {p q r : Pager} (h1 : Evicts p q) (h2 : Evicts q r) : Evicts p r where
  kept n im h := h1.kept n im (h2.kept n im h)
  read_kept n h := by
    rcases h with h | h
    · have hq : q.cached n = none := by
        cases hq : q.cached n with
        | none => rfl
        | some im => simp [h1.kept n im hq] at h
      rw [h2.read_kept n (.inl hq), h1.read_kept n (.inl h)]
    · obtain ⟨im, him⟩ := Option.isSome_iff_exists.mp h
      rw [h2.read_kept n (.inr h), h1.read_kept n (.inr (by simp [h2.kept n im him]))]
  read_dirty n im hp hr hd := by
    cases hq : q.cached n with
    | none => rw [h2.read_kept n (.inl hq), h1.read_dirty n im hp hq hd]
    | some im' =>
      obtain rfl : im = im' := by simpa [hp] using h1.kept n im' hq
      exact h2.read_dirty n im hq hr ((h1.dirty_iff n).2 ⟨hd, by simp [hq]⟩)
  read_clean n hd := by
    rw [h2.read_clean n fun h => hd ((h1.dirty_iff n).1 h).1, h1.read_clean n hd]
  dirty_iff n := by
    rw [h2.dirty_iff, h1.dirty_iff]
    constructor
    · exact fun h => ⟨h.1.1, h.2⟩
    · intro h
      obtain ⟨im, him⟩ := Option.isSome_iff_exists.mp h.2
      exact ⟨⟨h.1, by simp [h2.kept n im him]⟩, h.2⟩
  capacity_eq := h2.capacity_eq.trans h1.capacity_eq
  numPages_eq := h2.numPages_eq.trans h1.numPages_eq
  touched_eq := h2.touched_eq.trans h1.touched_eq
  shadow_eq := h2.shadow_eq.trans h1.shadow_eq
  nextId_eq := h2.nextId_eq.trans h1.nextId_eq

theorem Evicts.live {p p' : Pager} (he : Evicts p p') (h : p.Live) (ht : p.touched = none) : p'.Live where
  cached_length n im hc := h.cached_length n im (he.kept n im hc)
  cached_id n im hc := by rw [he.nextId_eq]; exact h.cached_id n im (he.kept n im hc)
  shadow_length n im hs := by rw [he.shadow_eq] at hs; exact h.shadow_length n im hs
  shadow_id n im hs := by rw [he.shadow_eq] at hs; rw [he.nextId_eq]; exact h.shadow_id n im hs
  dirty_cached n hn := ((he.dirty_iff n).1 hn).2
  shadow_touched n := by rw [he.shadow_eq, he.touched_eq]; exact h.shadow_touched n
  touched_cached n hn := by rw [he.touched_eq, ht] at hn; simp at hn
  nextId_pos := by rw [he.nextId_eq]; exact h.nextId_pos
  numPages_pos := by rw [he.numPages_eq]; exact h.numPages_pos

theorem Evicts.wf {p p' : Pager} (he : Evicts p p') (h : p.WF) (ht : p.touched = none) : p'.WF :=
  (he.live h.live ht).wf fun n hn => by rw [he.touched_eq, ht] at hn; simp at hn

/-- What a reader gets is unchanged unless a page that the file does not have was dropped. -/
theorem Evicts.content {p p' : Pager} (he : Evicts p p') {n : Nat}
    (hn : ∀ im, p.cached n = some im → p'.cached n = none → n ∉ p.pool.dirty → readPage p.file n = im.bytes) :
    p'.content n = p.content n := by
  cases hc : p.cached n with
  | none =>
    have hc' : p'.cached n = none := by
      cases hc' : p'.cached n with
      | none => rfl
      | some im => simp [he.kept n im hc'] at hc
    rw [content_of_not_cached hc, content_of_not_cached hc', he.read_kept n (.inl hc)]
  | some im =>
    rw [content_of_cached hc]
    cases hc' : p'.cached n with
    | some im' =>
      obtain rfl : im = im' := by simpa [hc] using he.kept n im' hc'
      rw [content_of_cached hc']
    | none =>
      rw [content_of_not_cached hc']
      by_cases hd : n ∈ p.pool.dirty
      · exact he.read_dirty n im hc hc' hd
      · rw [he.read_clean n hd, hn im hc hc' hd]

theorem Evicts.clean {p p' : Pager} (he : Evicts p p') (h : p.Clean) : p'.Clean := by
  intro n im hc hd
  have hp : n ∉ p.pool.dirty := fun h => hd ((he.dirty_iff n).2 ⟨h, by simp [hc]⟩)
  rw [he.read_clean n hp, h n im (he.kept n im hc) hp]

theorem evicts_evictOldest {p : Pager} (h : p.Live) : Evicts p p.evictOldest := by
  unfold evictOldest
  cases hl : p.pool.pages.entries.getLast? with
  | none => exact .refl h
  | some e =>
    obtain ⟨old, data⟩ := e
    have hmem : p.cached old = some data :=
      AList.mem_lookup_iff.2 (List.mem_of_getLast? hl)
    have hother : ∀ n, n ≠ old → (p.pool.pages.erase old).lookup n = p.cached n :=
      fun n hn => AList.lookup_erase_ne hn
    have hold : (p.pool.pages.erase old).lookup old = none := AList.lookup_erase _ _
    have hkept : ∀ n im, (p.pool.pages.erase old).lookup n = some im → p.cached n = some im := by
      intro n im hc
      by_cases hn : n = old
      · subst hn; rw [hold] at hc; cases hc
      · rwa [hother n hn] at hc
    have hwrite : ∀ m, readPage (writePage p.file old data.bytes) m =
        if m = old then data.bytes else readPage p.file m :=
      fun m => readPage_writePage (h.cached_length old data hmem)
    by_cases hd : old ∈ p.pool.dirty
    · simp only [hd, if_true]
      refine ⟨hkept, ?_, ?_, ?_, ?_, rfl, rfl, rfl, rfl, rfl⟩
      · intro n hn
        show readPage (writePage p.file old data.bytes) n = _
        rw [hwrite, if_neg]
        rintro rfl
        rcases hn with hn | hn
        · rw [hmem] at hn; cases hn
        · change ((p.pool.pages.erase n).lookup n).isSome at hn; rw [hold] at hn; cases hn
      · intro n im hc hc' _
        show readPage (writePage p.file old data.bytes) n = _
        by_cases hn : n = old
        · subst hn
          rw [hwrite, if_pos rfl]
          rw [hmem] at hc; cases hc; rfl
        · change (p.pool.pages.erase old).lookup n = none at hc'
          rw [hother n hn, hc] at hc'; cases hc'
      · intro n hn
        show readPage (writePage p.file old data.bytes) n = _
        rw [hwrite, if_neg]
        rintro rfl; exact hn hd
      · intro n
        show n ∈ p.pool.dirty.filter (· ≠ old) ↔ n ∈ p.pool.dirty ∧ ((p.pool.pages.erase old).lookup n).isSome
        by_cases hn : n = old
        · subst hn; simp
        · rw [hother n hn]
          simp only [List.mem_filter, ne_eq, hn, not_false_eq_true, decide_true, and_true]
          exact ⟨fun hm => ⟨hm, h.dirty_cached n hm⟩, And.left⟩
    · simp only [hd, if_false]
      refine ⟨hkept, fun _ _ => rfl, ?_, fun _ _ => rfl, ?_, rfl, rfl, rfl, rfl, rfl⟩
      · intro n im hc hc' hn
        have : n ≠ old := by rintro rfl; exact hd hn
        change (p.pool.pages.erase old).lookup n = none at hc'
        rw [hother n this, hc] at hc'; cases hc'
      · intro n
        show n ∈ p.pool.dirty ↔ n ∈ p.pool.dirty ∧ ((p.pool.pages.erase old).lookup n).isSome
        refine ⟨fun hm => ⟨hm, ?_⟩, And.left⟩
        have : n ≠ old := by rintro rfl; exact hd hm
        rw [hother n this]; exact h.dirty_cached n hm

theorem evicts_evictLoop {p : Pager} (h : p.Live) (ht : p.touched = none) (fuel : Nat) :
    Evicts p (evictLoop fuel p) := by
  induction fuel generalizing p with
  | zero => exact .refl h
  | succ fuel ih =>
    unfold evictLoop
    split
    · exact .refl h
    · have h1 := evicts_evictOldest h
      exact h1.trans (ih (h1.live h ht) (h1.touched_eq.trans ht))

theorem evicts_evictIfFull {p : Pager} (h : p.Live) : Evicts p p.evictIfFull := by
  unfold evictIfFull
  split
  · exact .refl h
  · rename_i ht
    exact evicts_evictLoop h (by simpa using ht) _

theorem evictIfFull_of_touched {p : Pager} (h : p.touched.isSome) : p.evictIfFull = p := by
  simp [evictIfFull, h]

/-! ### `get` -/

/-- `p'` is `p` after `get n` returned `im`. -/
structure Fetches (p p' : Pager) (n : Nat) (im : Image) : Prop where
  fetched : p'.cached n = some im
  source : p.cached n = some im ∨
    p.cached n = none ∧ im.bytes = readPage p.file n ∧ im.id = p.nextId
  kept : ∀ m im', m ≠ n → p'.cached m = some im' → p.cached m = some im'
  read_kept : ∀ m, p.cached m = none ∨ (p'.cached m).isSome → readPage p'.file m = readPage p.file m
  read_dirty : ∀ m im', p.cached m = some im' → p'.cached m = none → m ∈ p.pool.dirty →
    readPage p'.file m = im'.bytes
  read_clean : ∀ m, m ∉ p.pool.dirty → readPage p'.file m = readPage p.file m
  dirty_iff : ∀ m, m ∈ p'.pool.dirty ↔ m ∈ p.pool.dirty ∧ (p'.cached m).isSome
  file_touched : p.touched.isSome → p'.file = p.file ∧ ∀ m, (p.cached m).isSome → (p'.cached m).isSome
  capacity_eq : p'.pool.capacity = p.pool.capacity
  numPages_eq : p'.numPages = p.numPages
  touched_eq : p'.touched = p.touched
  shadow_eq : p'.shadow = p.shadow
  nextId_le : p.nextId ≤ p'.nextId
  id_lt : im.id < p'.nextId

theorem lookup_insert_self_eq {b : AList fun _ : Nat => Image} {n : Nat} {im : Image}
    (h : b.lookup n = some im) (m : Nat) : (b.insert n im).lookup m = b.lookup m := by
  by_cases hm : m = n
  · subst hm; rw [AList.lookup_insert, h]
  · rw [AList.lookup_insert_ne hm]

theorem live_newImage {p : Pager} (h : p.Live) (bytes : Bytes) : (p.newImage bytes).2.Live where
  cached_length := h.cached_length
  cached_id n im hc := Nat.lt_succ_of_lt (h.cached_id n im hc)
  shadow_length := h.shadow_length
  shadow_id n im hs := Nat.lt_succ_of_lt (h.shadow_id n im hs)
  dirty_cached := h.dirty_cached
  shadow_touched := h.shadow_touched
  touched_cached := h.touched_cached
  nextId_pos := Nat.succ_pos _
  numPages_pos := h.numPages_pos

theorem wf_newImage {p : Pager} (h : p.WF) (bytes : Bytes) : (p.newImage bytes).2.WF :=
  (live_newImage h.live bytes).wf h.touched_dirty

theorem fetches_get_live {p p' : Pager} {n : Nat} {im : Image} (h : p.Live) (hg : p.get n = .ok (im, p')) :
    Fetches p p' n im := by
  unfold get at hg
  split at hg
  · cases hg
  unfold BufferPool.get at hg
  cases hc : p.pool.pages.lookup n with
  | some data =>
    simp only [hc, Option.map_some, Except.ok.injEq, Prod.mk.injEq] at hg
    obtain ⟨rfl, rfl⟩ := hg
    have hsame : ∀ m, (p.pool.pages.insert n data).lookup m = p.cached m := lookup_insert_self_eq hc
    refine ⟨AList.lookup_insert _, .inl hc, fun m im' _ hm => (hsame m).symm.trans hm,
      fun _ _ => rfl, ?_, fun _ _ => rfl, fun m => ⟨fun hm => ⟨hm, ?_⟩, And.left⟩,
      fun _ => ⟨rfl, fun m hm => ?_⟩, rfl, rfl, rfl, rfl, Nat.le_refl _, h.cached_id n data hc⟩
    · intro m im' hm hm' _
      change (p.pool.pages.insert n data).lookup m = none at hm'
      rw [hsame, hm] at hm'; cases hm'
    · show ((p.pool.pages.insert n data).lookup m).isSome
      rw [hsame]; exact h.dirty_cached m hm
    · show ((p.pool.pages.insert n data).lookup m).isSome
      rwa [hsame]
  | none =>
    simp only [hc, Option.map_none, Except.ok.injEq, Prod.mk.injEq] at hg
    obtain ⟨rfl, rfl⟩ := hg
    set p1 := (p.newImage (readPage p.file n)).2 with hp1
    have h1 : p1.Live := live_newImage h _
    have he := evicts_evictIfFull h1
    set q := p1.evictIfFull
    have hn : n ∉ p.pool.dirty := fun hd => by
      have := h.dirty_cached n hd
      rw [cached, hc] at this; cases this
    have hqn : q.cached n = none := by
      cases hqn : q.cached n with
      | none => rfl
      | some im => have := he.kept n im hqn; rw [hp1] at this; exact absurd (this.symm.trans hc) (by simp)
    have hother : ∀ m, m ≠ n → (q.pool.pages.insert n ⟨p.nextId, readPage p.file n⟩).lookup m = q.cached m :=
      fun m hm => AList.lookup_insert_ne hm
    have hself : (q.pool.pages.insert n ⟨p.nextId, readPage p.file n⟩).lookup n =
      some ⟨p.nextId, readPage p.file n⟩ := AList.lookup_insert _
    have hread : ∀ m, (q.pool.pages.insert n ⟨p.nextId, readPage p.file n⟩).lookup m = none →
        q.cached m = none := by
      intro m hm
      by_cases hmn : m = n
      · rwa [hmn]
      · rwa [hother m hmn] at hm
    refine ⟨hself, .inr ⟨hc, rfl, rfl⟩, fun m im' hm hm' => he.kept m im' ((hother m hm).symm.trans hm'),
      fun m hm => ?_, fun m im' hm hm' hd => he.read_dirty m im' hm (hread m hm') hd, he.read_clean,
      fun m => ?_, fun ht => ?_, he.capacity_eq, he.numPages_eq, he.touched_eq, he.shadow_eq, ?_, ?_⟩
    · by_cases hmn : m = n
      · subst hmn; exact he.read_clean m hn
      · refine he.read_kept m (hm.imp id fun hm => ?_)
        change ((q.pool.pages.insert n ⟨p.nextId, readPage p.file n⟩).lookup m).isSome at hm
        rwa [hother m hmn] at hm
    · show m ∈ q.pool.dirty ↔ _ ∧ ((q.pool.pages.insert n ⟨p.nextId, readPage p.file n⟩).lookup m).isSome
      rw [he.dirty_iff]
      by_cases hmn : m = n
      · subst hmn; simp [hqn, hn, hp1, newImage]
      · rw [hother m hmn]; rfl
    · have : q = p1 := evictIfFull_of_touched ht
      refine ⟨by show q.file = _; rw [this]; rfl, fun m hm => ?_⟩
      show ((q.pool.pages.insert n ⟨p.nextId, readPage p.file n⟩).lookup m).isSome
      by_cases hmn : m = n
      · rw [hmn, hself]; rfl
      · rw [hother m hmn, this]; exact hm
    · show p.nextId ≤ q.nextId
      rw [he.nextId_eq]; exact Nat.le_succ _
    · show p.nextId < q.nextId
      rw [he.nextId_eq]; exact Nat.lt_succ_self _

theorem fetches_get {p p' : Pager} {n : Nat} {im : Image} (h : p.WF) (hg : p.get n = .ok (im, p')) : Fetches p p' n im :=
  fetches_get_live h.live hg

/-- A page `get` throws out of the pool although the file does not have it. -/
def Drops (p p' : Pager) (n : Nat) (im : Image) : Prop :=
  p.cached n = some im ∧ p'.cached n = none ∧ n ∉ p.pool.dirty ∧ readPage p.file n ≠ im.bytes

namespace Fetches
variable {p p' : Pager} {n : Nat} {im : Image}

theorem bytes_eq (hf : Fetches p p' n im) : im.bytes = p.content n := by
  rcases hf.source with h | ⟨h, hb, -⟩
  · rw [content_of_cached h]
  · rw [content_of_not_cached h, hb]

theorem live (hf : Fetches p p' n im) (h : p.Live) : p'.Live where
  cached_length m im' hc := by
    by_cases hm : m = n
    · subst hm
      obtain rfl : im = im' := by simpa [hf.fetched] using hc
      rw [hf.bytes_eq]; exact h.length_content m
    · exact h.cached_length m im' (hf.kept m im' hm hc)
  cached_id m im' hc := by
    by_cases hm : m = n
    · subst hm
      obtain rfl : im = im' := by simpa [hf.fetched] using hc
      exact hf.id_lt
    · exact Nat.lt_of_lt_of_le (h.cached_id m im' (hf.kept m im' hm hc)) hf.nextId_le
  shadow_length m im' hs := by rw [hf.shadow_eq] at hs; exact h.shadow_length m im' hs
  shadow_id m im' hs := by
    rw [hf.shadow_eq] at hs; exact Nat.lt_of_lt_of_le (h.shadow_id m im' hs) hf.nextId_le
  dirty_cached m hm := ((hf.dirty_iff m).1 hm).2
  shadow_touched m := by rw [hf.shadow_eq, hf.touched_eq]; exact h.shadow_touched m
  touched_cached m hm := by
    rw [hf.touched_eq] at hm
    have ht : p.touched.isSome := by cases ht : p.touched <;> simp_all
    exact (hf.file_touched ht).2 m (h.touched_cached m hm)
  nextId_pos := Nat.lt_of_lt_of_le h.nextId_pos hf.nextId_le
  numPages_pos := by rw [hf.numPages_eq]; exact h.numPages_pos

theorem wf (hf : Fetches p p' n im) (h : p.WF) : p'.WF :=
  (hf.live h.live).wf fun m hm => by
    have hc := (hf.live h.live).touched_cached m hm
    rw [hf.touched_eq] at hm
    exact (hf.dirty_iff m).2 ⟨h.touched_dirty m hm, hc⟩

theorem content_eq (hf : Fetches p p' n im) {m : Nat} (hm : ∀ im', ¬ Drops p p' m im') :
    p'.content m = p.content m := by
  by_cases hmn : m = n
  · subst hmn; rw [content_of_cached hf.fetched, hf.bytes_eq]
  · cases hc' : p'.cached m with
    | some im' => rw [content_of_cached hc', content_of_cached (hf.kept m im' hmn hc')]
    | none =>
      rw [content_of_not_cached hc']
      cases hc : p.cached m with
      | none => rw [content_of_not_cached hc, hf.read_kept m (.inl hc)]
      | some im' =>
        rw [content_of_cached hc]
        by_cases hd : m ∈ p.pool.dirty
        · exact hf.read_dirty m im' hc hc' hd
        · by_contra hne
          exact hm im' ⟨hc, hc', hd, fun h => hne ((hf.read_clean m hd).trans h)⟩

theorem clean (hf : Fetches p p' n im) (h : p.Clean) : p'.Clean := by
  intro m im' hc hd
  by_cases hmn : m = n
  · subst hmn
    obtain rfl : im = im' := by simpa [hf.fetched] using hc
    have hd' : m ∉ p.pool.dirty := fun hd' => hd ((hf.dirty_iff m).2 ⟨hd', by simp [hc]⟩)
    rw [hf.read_clean m hd']
    rcases hf.source with hs | ⟨-, hb, -⟩
    · exact h m im hs hd'
    · exact hb.symm
  · have hd' : m ∉ p.pool.dirty := fun hd' => hd ((hf.dirty_iff m).2 ⟨hd', by simp [hc]⟩)
    rw [hf.read_clean m hd', h m im' (hf.kept m im' hmn hc) hd']

/-- In a transaction nothing is evicted, so `get` changes no page and no pre-image. -/
theorem content_eq_of_touched (hf : Fetches p p' n im) (ht : p.touched.isSome) (m : Nat) :
    p'.content m = p.content m :=
  hf.content_eq fun im' hd => by
    have := (hf.file_touched ht).2 m (by simp [hd.1])
    rw [hd.2.1] at this; cases this

theorem base_eq (hf : Fetches p p' n im) (ht : p.touched.isSome) (m : Nat) : p'.base m = p.base m := by
  unfold base
  rw [hf.shadow_eq, hf.content_eq_of_touched ht, (hf.file_touched ht).1]

end Fetches

/-! ### `write` and `allocate` -/

/-- `p'` is `p` after page `n` was replaced by the image `im`. -/
structure Stores (p p' : Pager) (n : Nat) (im : Image) : Prop where
  stored : p'.cached n = some im
  kept : ∀ m im', m ≠ n → p'.cached m = some im' → p.cached m = some im'
  read_kept : ∀ m, m ≠ n → p.cached m = none ∨ (p'.cached m).isSome →
    readPage p'.file m = readPage p.file m
  read_dirty : ∀ m im', m ≠ n → p.cached m = some im' → p'.cached m = none → m ∈ p.pool.dirty →
    readPage p'.file m = im'.bytes
  read_clean : ∀ m, m ∉ p.pool.dirty → readPage p'.file m = readPage p.file m
  dirty_iff : ∀ m, m ∈ p'.pool.dirty ↔ m = n ∨ m ∈ p.pool.dirty ∧ (p'.cached m).isSome
  file_touched : p.touched.isSome → p'.file = p.file ∧ ∀ m, m ≠ n → p'.cached m = p.cached m
  shadow_other : ∀ m, m ≠ n ∨ p.touched = none ∨ n ∈ p.shadow → p'.shadow.lookup m = p.shadow.lookup m
  shadow_cached : p.touched.isSome → n ∉ p.shadow → ∀ im', p.cached n = some im' →
    p'.shadow.lookup n = some (some im')
  shadow_not_cached : p.touched.isSome → n ∉ p.shadow → p.cached n = none →
    p'.shadow.lookup n = some none ∨
    ∃ im', p'.shadow.lookup n = some (some im') ∧ im'.bytes = readPage p.file n ∧ im'.id = p.nextId
  capacity_eq : p'.pool.capacity = p.pool.capacity
  numPages_eq : p'.numPages = max p.numPages (n + 1)
  touched_eq : p'.touched = p.touched.map (·.insert n)
  nextId_le : p.nextId ≤ p'.nextId
  nextId_shadow : ∀ m im', p'.shadow.lookup m = some (some im') → im'.id < p'.nextId

theorem max_numPages (k n : Nat) : (if k ≤ n then n + 1 else k) = max k (n + 1) := by
  split <;> omega

theorem mem_put_dirty {b : BufferPool} {n : Nat} {im : Image} {m : Nat} :
    m ∈ (b.put n im true).dirty ↔ m = n ∨ m ∈ b.dirty := by
  simp [BufferPool.put]

theorem stores_putPage_of_touched {p : Pager} {n : Nat} {im : Image} (h : p.Live) (ht : p.touched.isSome) :
    Stores p (p.putPage n im) n im := by
  -- the shadow of `n` is saved first; the pool's images stay what they are
  obtain ⟨q, hq, hlook, hrest, hother, hc, hnc, hid, hle⟩ : ∃ q, p.saveShadow n = q ∧
      (∀ m, q.cached m = p.cached m) ∧
      (q.file = p.file ∧ q.pool.dirty = p.pool.dirty ∧ q.pool.capacity = p.pool.capacity ∧
        q.numPages = p.numPages ∧ q.touched = p.touched) ∧
      (∀ m, m ≠ n ∨ n ∈ p.shadow → q.shadow.lookup m = p.shadow.lookup m) ∧
      (n ∉ p.shadow → ∀ im', p.cached n = some im' → q.shadow.lookup n = some (some im')) ∧
      (n ∉ p.shadow → p.cached n = none → q.shadow.lookup n = some none ∨
        ∃ im', q.shadow.lookup n = some (some im') ∧ im'.bytes = readPage p.file n ∧ im'.id = p.nextId) ∧
      (∀ m im', q.shadow.lookup m = some (some im') → im'.id < q.nextId) ∧ p.nextId ≤ q.nextId := by
    refine ⟨_, rfl, ?_⟩
    unfold saveShadow
    by_cases hs : n ∈ p.shadow
    · rw [if_neg (fun h => h.2 hs)]
      exact ⟨fun _ => rfl, ⟨rfl, rfl, rfl, rfl, rfl⟩, fun _ _ => rfl, fun h => absurd hs h,
        fun h => absurd hs h, h.shadow_id, Nat.le_refl _⟩
    simp only [ht, hs, not_false_eq_true, and_self, if_true, BufferPool.get]
    cases hc : p.pool.pages.lookup n with
    | some current =>
      refine ⟨lookup_insert_self_eq hc, ⟨rfl, rfl, rfl, rfl, rfl⟩, fun m hm => ?_, fun _ im' him => ?_,
        fun _ hn => ?_, fun m im' him => ?_, Nat.le_refl _⟩
      · rcases hm with hm | hm
        · exact AList.lookup_insert_ne hm
        · exact hm.elim
      · obtain rfl : current = im' := by simpa [cached, hc] using him
        exact AList.lookup_insert _
      · rw [cached, hc] at hn; cases hn
      · by_cases hm : m = n
        · subst hm
          obtain rfl : current = im' := by simpa [AList.lookup_insert] using him
          exact h.cached_id m current hc
        · exact h.shadow_id m im' ((AList.lookup_insert_ne hm).symm.trans him)
    | none =>
      simp only [Option.map_none]
      split
      · refine ⟨fun _ => rfl, ⟨rfl, rfl, rfl, rfl, rfl⟩, fun m hm => ?_, fun _ im' him => ?_,
          fun _ _ => .inr ⟨_, AList.lookup_insert _, rfl, rfl⟩, fun m im' him => ?_, Nat.le_succ _⟩
        · rcases hm with hm | hm
          · exact AList.lookup_insert_ne hm
          · exact hm.elim
        · rw [cached, hc] at him; cases him
        · by_cases hm : m = n
          · subst hm
            have : im' = (p.newImage (readPage p.file m)).1 := by
              simpa [AList.lookup_insert, eq_comm] using him
            rw [this]; exact Nat.lt_succ_self _
          · exact Nat.lt_succ_of_lt (h.shadow_id m im' ((AList.lookup_insert_ne hm).symm.trans him))
      · refine ⟨fun _ => rfl, ⟨rfl, rfl, rfl, rfl, rfl⟩, fun m hm => ?_, fun _ im' him => ?_,
          fun _ _ => .inl (AList.lookup_insert _), fun m im' him => ?_, Nat.le_refl _⟩
        · rcases hm with hm | hm
          · exact AList.lookup_insert_ne hm
          · exact hm.elim
        · rw [cached, hc] at him; cases him
        · by_cases hm : m = n
          · subst hm; simp [AList.lookup_insert] at him
          · exact h.shadow_id m im' ((AList.lookup_insert_ne hm).symm.trans him)
  obtain ⟨hfile, hdirty, hcap, hnum, htouch⟩ := hrest
  have hev : q.evictIfFull = q := evictIfFull_of_touched (by rw [htouch]; exact ht)
  have hself : (q.pool.pages.insert n im).lookup n = some im := AList.lookup_insert _
  have hne : ∀ m, m ≠ n → (q.pool.pages.insert n im).lookup m = p.cached m := fun m hm =>
    (AList.lookup_insert_ne hm).trans (hlook m)
  have hput : p.putPage n im = q.install n im := by rw [putPage, hq]
  unfold install at hput
  rw [hev] at hput
  rw [hput]
  refine ⟨hself, fun m im' hm hm' => (hne m hm).symm.trans hm', fun _ _ _ => ?_, fun m im' hm h1 h2 => ?_,
    fun _ _ => ?_, fun m => ?_, fun _ => ⟨hfile, hne⟩, fun m hm => hother m ?_, fun _ => hc, fun _ => hnc,
    hcap, ?_, ?_, hle, hid⟩
  · show readPage q.file _ = _; rw [hfile]
  · change (q.pool.pages.insert n im).lookup m = none at h2
    rw [hne m hm, h1] at h2; cases h2
  · show readPage q.file _ = _; rw [hfile]
  · show m ∈ (q.pool.put n im true).dirty ↔ m = n ∨ m ∈ p.pool.dirty ∧ ((q.pool.pages.insert n im).lookup m).isSome
    rw [mem_put_dirty, hdirty]
    by_cases hm : m = n
    · simp [hm]
    · rw [hne m hm]
      exact or_congr Iff.rfl ⟨fun hd => ⟨hd, h.dirty_cached m hd⟩, And.left⟩
  · rcases hm with hm | hm | hm
    · exact .inl hm
    · rw [hm] at ht; cases ht
    · exact .inr hm
  · show (if q.numPages ≤ n then n + 1 else q.numPages) = _
    rw [max_numPages, hnum]
  · show q.touched.map (·.insert n) = _
    rw [htouch]

theorem stores_putPage_of_not_touched {p : Pager} {n : Nat} {im : Image} (h : p.Live) (ht : p.touched = none) :
    Stores p (p.putPage n im) n im := by
  have hs : p.saveShadow n = p := by simp [saveShadow, ht]
  have he := evicts_evictIfFull h
  rw [putPage, hs, install]
  set q := p.evictIfFull
  have hself : (q.pool.pages.insert n im).lookup n = some im := AList.lookup_insert _
  have hne : ∀ m, m ≠ n → (q.pool.pages.insert n im).lookup m = q.cached m := fun m hm =>
    AList.lookup_insert_ne hm
  have hnone : ¬ p.touched.isSome := by simp [ht]
  refine ⟨hself, fun m im' hm hm' => he.kept m im' ((hne m hm).symm.trans hm'), fun m hm hm' => ?_,
    fun m im' hm h1 h2 hd => he.read_dirty m im' h1 ((hne m hm).symm.trans h2) hd, he.read_clean,
    fun m => ?_, fun h => absurd h hnone, fun m _ => ?_, fun h => absurd h hnone, fun h => absurd h hnone,
    he.capacity_eq, ?_, ?_, ?_, ?_⟩
  · refine he.read_kept m (hm'.imp id fun hm' => ?_)
    change ((q.pool.pages.insert n im).lookup m).isSome at hm'
    rwa [hne m hm] at hm'
  · show m ∈ (q.pool.put n im true).dirty ↔ m = n ∨ m ∈ p.pool.dirty ∧ ((q.pool.pages.insert n im).lookup m).isSome
    rw [mem_put_dirty, he.dirty_iff]
    by_cases hm : m = n
    · simp [hm]
    · rw [hne m hm]
  · show q.shadow.lookup m = _
    rw [he.shadow_eq]
  · show (if q.numPages ≤ n then n + 1 else q.numPages) = _
    rw [max_numPages, he.numPages_eq]
  · show q.touched.map (·.insert n) = _
    rw [he.touched_eq]
  · show p.nextId ≤ q.nextId
    rw [he.nextId_eq]
  · intro m im' hm
    change q.shadow.lookup m = _ at hm
    rw [he.shadow_eq] at hm
    show im'.id < q.nextId
    rw [he.nextId_eq]
    exact h.shadow_id m im' hm

theorem stores_putPage_live {p : Pager} (h : p.Live) (n : Nat) (im : Image) : Stores p (p.putPage n im) n im := by
  cases ht : p.touched with
  | none => exact stores_putPage_of_not_touched h ht
  | some t => exact stores_putPage_of_touched h (by simp [ht])

theorem stores_putPage {p : Pager} (h : p.WF) (n : Nat) (im : Image) : Stores p (p.putPage n im) n im :=
  stores_putPage_live h.live n im

namespace Stores
variable {p p' : Pager} {n : Nat} {im : Image}

theorem mem_shadow_iff (hs : Stores p p' n im) (m : Nat) :
    m ∈ p'.shadow ↔ m ∈ p.shadow ∨ p.touched.isSome ∧ m = n := by
  rw [← AList.lookup_isSome, ← AList.lookup_isSome]
  by_cases hm : m ≠ n ∨ p.touched = none ∨ n ∈ p.shadow
  · rw [hs.shadow_other m hm]
    refine ⟨.inl, fun h => h.elim id fun h => ?_⟩
    rcases hm with hm | hm | hm
    · exact absurd h.2 hm
    · rw [hm] at h; cases h.1
    · rw [h.2]; exact AList.lookup_isSome.2 hm
  · simp only [not_or, not_not] at hm
    obtain ⟨rfl, ht, hns⟩ := hm
    have ht : p.touched.isSome := by cases h : p.touched <;> simp_all
    simp only [ht, and_self, or_true, iff_true]
    cases hc : p.cached m with
    | some im' => rw [hs.shadow_cached ht hns im' hc]; rfl
    | none => rcases hs.shadow_not_cached ht hns hc with h | ⟨im', h, -⟩ <;> rw [h] <;> rfl

theorem live (hs : Stores p p' n im) (h : p.Live) (hlen : im.bytes.length = pageSize) (hid : im.id < p.nextId) :
    p'.Live where
  cached_length m im' hc := by
    by_cases hm : m = n
    · subst hm
      obtain rfl : im = im' := by simpa [hs.stored] using hc
      exact hlen
    · exact h.cached_length m im' (hs.kept m im' hm hc)
  cached_id m im' hc := by
    refine Nat.lt_of_lt_of_le ?_ hs.nextId_le
    by_cases hm : m = n
    · subst hm
      obtain rfl : im = im' := by simpa [hs.stored] using hc
      exact hid
    · exact h.cached_id m im' (hs.kept m im' hm hc)
  shadow_length m im' hsh := by
    by_cases hm : m ≠ n ∨ p.touched = none ∨ n ∈ p.shadow
    · rw [hs.shadow_other m hm] at hsh; exact h.shadow_length m im' hsh
    · simp only [not_or, not_not] at hm
      obtain ⟨rfl, ht, hns⟩ := hm
      have ht : p.touched.isSome := by cases h : p.touched <;> simp_all
      cases hc : p.cached m with
      | some c =>
        rw [hs.shadow_cached ht hns c hc] at hsh
        obtain rfl : c = im' := by simpa using hsh
        exact h.cached_length m c hc
      | none =>
        rcases hs.shadow_not_cached ht hns hc with h' | ⟨c, h', hb, -⟩ <;> rw [h'] at hsh
        · simp at hsh
        · obtain rfl : c = im' := by simpa using hsh
          rw [hb]; exact length_readPage _ _
  shadow_id := hs.nextId_shadow
  dirty_cached m hm := by
    rcases (hs.dirty_iff m).1 hm with rfl | hm
    · simp [hs.stored]
    · exact hm.2
  shadow_touched m := by
    rw [hs.mem_shadow_iff, h.shadow_touched, hs.touched_eq]
    cases ht : p.touched <;> simp [or_comm]
  touched_cached m hm := by
    rw [hs.touched_eq] at hm
    cases ht : p.touched with
    | none => rw [ht] at hm; simp at hm
    | some t =>
      by_cases hmn : m = n
      · rw [hmn, hs.stored]
        rfl
      · rw [(hs.file_touched (by simp [ht])).2 m hmn]
        simp only [ht, Option.map_some, Option.getD_some, List.mem_insert_iff] at hm
        exact h.touched_cached m (by simpa [ht] using hm.resolve_left hmn)
  nextId_pos := Nat.lt_of_lt_of_le h.nextId_pos hs.nextId_le
  numPages_pos := by rw [hs.numPages_eq]; omega

theorem wf (hs : Stores p p' n im) (h : p.WF) (hlen : im.bytes.length = pageSize) (hid : im.id < p.nextId) :
    p'.WF :=
  (hs.live h.live hlen hid).wf fun m hm => by
    rw [hs.touched_eq] at hm
    cases ht : p.touched with
    | none => rw [ht] at hm; simp at hm
    | some t =>
      rw [hs.dirty_iff]
      simp only [ht, Option.map_some, Option.getD_some, List.mem_insert_iff] at hm
      rcases hm with hm | hm
      · exact .inl hm
      · by_cases hmn : m = n
        · exact .inl hmn
        · have hd := h.touched_dirty m (by simpa [ht] using hm)
          refine .inr ⟨hd, ?_⟩
          rw [(hs.file_touched (by simp [ht])).2 m hmn]
          exact h.dirty_cached m hd

theorem content_self (hs : Stores p p' n im) : p'.content n = im.bytes := content_of_cached hs.stored

theorem content_other_of_touched (hs : Stores p p' n im) (ht : p.touched.isSome) {m : Nat} (hm : m ≠ n) :
    p'.content m = p.content m := by
  unfold content
  rw [(hs.file_touched ht).1, (hs.file_touched ht).2 m hm]

theorem clean (hs : Stores p p' n im) (h : p.Clean) : p'.Clean := by
  intro m im' hc hd
  have hm : m ≠ n := fun hm => hd ((hs.dirty_iff m).2 (.inl hm))
  have hd' : m ∉ p.pool.dirty := fun hd' => hd ((hs.dirty_iff m).2 (.inr ⟨hd', by simp [hc]⟩))
  rw [hs.read_clean m hd', h m im' (hs.kept m im' hm hc) hd']

/-- A write in a transaction keeps every pre-image. -/
theorem base_eq (hs : Stores p p' n im) (ht : p.touched.isSome) (m : Nat) : p'.base m = p.base m := by
  obtain ⟨hfile, hother⟩ := hs.file_touched ht
  by_cases hm : m = n
  · subst hm
    by_cases hsh : m ∈ p.shadow
    · unfold base
      rw [hs.shadow_other m (.inr (.inr hsh)), hfile]
      obtain ⟨c, hc⟩ := Option.isSome_iff_exists.mp (AList.lookup_isSome.2 hsh)
      rw [hc]
      cases c <;> rfl
    · have hb : p.base m = p.content m := by simp [base, AList.lookup_eq_none.2 hsh]
      rw [hb]
      cases hc : p.cached m with
      | some c => simp [base, hs.shadow_cached ht hsh c hc, content_of_cached hc]
      | none =>
        rw [content_of_not_cached hc]
        rcases hs.shadow_not_cached ht hsh hc with h | ⟨c, h, hb, -⟩
        · simp [base, h, hfile]
        · simp [base, h, hb]
  · unfold base
    rw [hs.shadow_other m (.inl hm), hfile, hs.content_other_of_touched ht hm]

end Stores

theorem write_eq_ok {p p' : Pager} {n : Nat} {data : Bytes} (h : p.write n data = .ok p') :
    data.length ≤ pageSize ∧ p' = (p.newImage (padTo pageSize data)).2.putPage n ⟨p.nextId, padTo pageSize data⟩ := by
  unfold write at h
  split at h
  · cases h
  · cases h
    exact ⟨by omega, rfl⟩

end LeafDb.Pager
