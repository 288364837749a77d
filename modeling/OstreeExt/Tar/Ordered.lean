import OstreeExt.Tar.Distinct

/-!
# The order of a stream

Readers of an exported stream go through it once, so what an entry refers to must have come
before it.  `MayFollow` says what that means for one entry and those in front of it: a hard link
names an earlier entry, a content object comes right after the reference to its xattrs, and no
object comes twice.  Every step of the writer keeps the order of what it has written
(`Sound`), whatever the commit looks like.
-/

namespace OstreeExt.Tar

open OstreeExt Exec Objects

-- ── Lists in order ────────────────────────────────────────────────────────────

section InOrder

variable {α : Type} {P : List α → α → Prop} {l : List α} {a : α}

/-- Every element is fine after the elements in front of it. -/
def InOrder (P : List α → α → Prop) (l : List α) : Prop :=
  ∀ pre a post, l = pre ++ a :: post → P pre a

theorem InOrder.nil : InOrder P [] := by
  intro pre a post h
  exact absurd h (by simp)

/-- One more element. -/
theorem InOrder.snoc (h : InOrder P l) (ha : P l a) : InOrder P (l ++ [a]) := by
  intro pre b post hsplit
  rcases List.eq_nil_or_concat' post with rfl | ⟨post', b', rfl⟩
  · obtain ⟨rfl, hab⟩ := List.append_inj' hsplit rfl
    injection hab with hab _
    exact hab ▸ ha
  · rw [← List.cons_append, ← List.append_assoc] at hsplit
    obtain ⟨hl, _⟩ := List.append_inj' hsplit rfl
    exact h pre b post' hl

end InOrder

-- ── The order ─────────────────────────────────────────────────────────────────

/-- The suffixes of the objects that come once. -/
def onceSuffixes : List String := ["file", "file-xattrs", "dirtree", "dirmeta", "commit"]

/-- The last entry is the reference of a content object to its xattrs, and these came before:
    they are named by the SHA-256 of their data. -/
def Announces (lib : Libostree) (pre : List Entry) (c : Checksum) : Prop :=
  ∃ pre' l x, pre = pre' ++ [l] ∧ l.path = objectFile c "file-xattrs-link" ∧
    l.header.entryType = .link ∧ l.linkName = some x.path.render ∧ x ∈ pre' ∧
    x.path = objectFile (lib.sha256 x.data) "file-xattrs"

/-- **What an entry may follow.** -/
structure MayFollow (lib : Libostree) (pre : List Entry) (e : Entry) : Prop where
  link : e.header.entryType = .link → ∃ e' ∈ pre, e.linkName = some e'.path.render
  content : ∀ c, e.path = objectFile c "file" → Announces lib pre c
  once : ∀ sfx ∈ onceSuffixes, ∀ c, e.path = objectFile c sfx → ∀ e' ∈ pre, e'.path ≠ e.path

/-- **The state of the writer**: what it has written is in order, and its sets say what is
    there. -/
structure Sound (lib : Libostree) (w : TarWriter) : Prop where
  ordered : InOrder (MayFollow lib) w.out
  content : ∀ c ∈ w.wroteContent, ∃ e ∈ w.out, e.path = objectFile c "file"
  xattrs : ∀ x ∈ w.wroteXattrs, ∃ e ∈ w.out, e.path = objectFile x "file-xattrs" ∧
    lib.sha256 e.data = x
  known : ∀ sfx ∈ recordedSuffixes, ∀ c, ∀ e ∈ w.out, e.path = objectFile c sfx →
    c ∈ w.recorded sfx

/-- A step of the writer that keeps the order. -/
def KeepsOrder (lib : Libostree) (w w' : TarWriter) : Prop := Sound lib w → Sound lib w'

theorem KeepsOrder.refl (lib : Libostree) (w : TarWriter) : KeepsOrder lib w w := fun h => h

theorem KeepsOrder.trans (lib : Libostree) (a b c : TarWriter) (h : KeepsOrder lib a b)
    (h' : KeepsOrder lib b c) : KeepsOrder lib a c := fun ha => h' (h ha)

theorem onceSuffixes_dot : ∀ s ∈ onceSuffixes, '.' ∉ s.toList := by decide

section Steps

variable {lib : Libostree} {tar : TarCrate} {src : Repo} {w : TarWriter} {e : Entry}

theorem Sound.empty (lib : Libostree) (b : Bool) : Sound lib { structureOnly := b } where
  ordered := InOrder.nil
  content c hc := absurd hc (Finset.notMem_empty c)
  xattrs x hx := absurd hx (Finset.notMem_empty x)
  known _ _ _ e he := absurd he (by simp)

/-- An entry that is no object of its own. -/
theorem Sound.other (h : Sound lib w) (hpath : ∀ sfx ∈ onceSuffixes ++ recordedSuffixes,
      ∀ c, e.path ≠ objectFile c sfx)
    (hlink : e.header.entryType = .link → ∃ e' ∈ w.out, e.linkName = some e'.path.render) :
    Sound lib { w with out := w.out ++ [e] } where
  ordered := h.ordered.snoc
    { link := hlink
      content := fun c hc => absurd hc (hpath _ (by decide) c)
      once := fun sfx hsfx c hc => absurd hc (hpath sfx (List.mem_append_left _ hsfx) c) }
  content c hc := by
    obtain ⟨x, hx, hpx⟩ := h.content c hc
    exact ⟨x, List.mem_append_left _ hx, hpx⟩
  xattrs x hx := by
    obtain ⟨y, hy, hpy⟩ := h.xattrs x hx
    exact ⟨y, List.mem_append_left _ hy, hpy⟩
  known sfx hsfx c x hx hpx := by
    rcases List.mem_append.mp hx with hx | hx
    · exact h.known sfx hsfx c x hx hpx
    · rw [List.mem_singleton.mp hx] at hpx
      exact absurd hpx (hpath sfx (List.mem_append_right _ hsfx) c)

/-- What is not on record has not been written. -/
theorem Sound.fresh (h : Sound lib w) {sfx : String} (hsfx : sfx ∈ recordedSuffixes) {c : Checksum}
    (hc : c ∉ w.recorded sfx) : ∀ e ∈ w.out, e.path ≠ objectFile c sfx :=
  fun e he hpath => hc (h.known sfx hsfx c e he hpath)

/-- The file of an object that has not been written, other than a content object. -/
theorem MayFollow.data {pre : List Entry} {c : Checksum} {sfx : String}
    (hsfx : sfx ∈ onceSuffixes) (hfile : sfx ≠ "file")
    (hfresh : ∀ e ∈ pre, e.path ≠ objectFile c sfx) (data : Bytes) :
    MayFollow lib pre (dataEntry c sfx data) where
  link hty := absurd hty (by simp [dataEntry, defaultHeader])
  content c' hpath := by
    have heq := (objectFile_inj (onceSuffixes_dot sfx hsfx) (by decide) hpath).2
    exact absurd heq hfile
  once _ _ _ _ := hfresh

/-- The order, and what the sets say, after some object was recorded. -/
theorem Sound.record (h : Sound lib w) {w' : TarWriter} {c : Checksum} {sfx : String}
    (hout : w'.out = w.out ++ [e]) (hpath : e.path = objectFile c sfx) (hdot : '.' ∉ sfx.toList)
    (hfollows : MayFollow lib w.out e) (hcontent : w'.wroteContent = w.wroteContent)
    (hxattrs : ∀ x ∈ w'.wroteXattrs, x ∈ w.wroteXattrs ∨
      e.path = objectFile x "file-xattrs" ∧ lib.sha256 e.data = x)
    (hkeeps : ∀ s ∈ recordedSuffixes, w.recorded s ⊆ w'.recorded s)
    (hnew : sfx ∈ recordedSuffixes → c ∈ w'.recorded sfx) : Sound lib w' where
  ordered := by
    rw [hout]
    exact h.ordered.snoc hfollows
  content x hx := by
    rw [hcontent] at hx
    obtain ⟨y, hy, hpy⟩ := h.content x hx
    exact ⟨y, by rw [hout]; exact List.mem_append_left _ hy, hpy⟩
  xattrs x hx := by
    rcases hxattrs x hx with hx | hx
    · obtain ⟨y, hy, hpy⟩ := h.xattrs x hx
      exact ⟨y, by rw [hout]; exact List.mem_append_left _ hy, hpy⟩
    · exact ⟨e, by rw [hout]; exact List.mem_append_right _ (List.mem_singleton_self e), hx⟩
  known s hs x y hy hpy := by
    rw [hout] at hy
    rcases List.mem_append.mp hy with hy | hy
    · exact hkeeps s hs (h.known s hs x y hy hpy)
    · rw [List.mem_singleton.mp hy, hpath] at hpy
      obtain ⟨rfl, rfl⟩ := objectFile_inj hdot (recordedSuffixes_dot s hs) hpy
      exact hnew hs

/-- A dirtree object. -/
theorem appendDirtreeObj_keepsOrder (c : Checksum) (data : Bytes) :
    Steps (KeepsOrder lib) (appendDirtreeObj c data) := by
  intro w h
  rw [appendDirtreeObj_run]
  by_cases hc : c ∈ w.wroteDirtree
  · rw [if_pos hc]
    exact h
  · rw [if_neg hc]
    have hfresh := h.fresh (show "dirtree" ∈ recordedSuffixes by decide) hc
    refine h.record rfl rfl (by decide) (.data (by decide) (by decide) hfresh data) rfl
      (fun x hx => .inl hx) ?_ (fun _ => Finset.mem_insert_self c _)
    rw [forall_recordedSuffixes]
    simp [TarWriter.recorded]

/-- A dirmeta object. -/
theorem appendDirmetaObj_keepsOrder (c : Checksum) (data : Bytes) :
    Steps (KeepsOrder lib) (appendDirmetaObj c data) := by
  intro w h
  rw [appendDirmetaObj_run]
  by_cases hc : c ∈ w.wroteDirmeta
  · rw [if_pos hc]
    exact h
  · rw [if_neg hc]
    have hfresh := h.fresh (show "dirmeta" ∈ recordedSuffixes by decide) hc
    refine h.record rfl rfl (by decide) (.data (by decide) (by decide) hfresh data) rfl
      (fun x hx => .inl hx) ?_ (fun _ => Finset.mem_insert_self c _)
    rw [forall_recordedSuffixes]
    simp [TarWriter.recorded]

/-- The xattrs of a content object are there before the reference to them. -/
theorem Sound.xattrsContent (h : Sound lib w) (x : Bytes) :
    Sound lib { w with
      wroteXattrs := insert (lib.sha256 x) w.wroteXattrs
      out := w.out ++ if lib.sha256 x ∈ w.wroteXattrs then []
        else [dataEntry (lib.sha256 x) "file-xattrs" x] } := by
  by_cases hx : lib.sha256 x ∈ w.wroteXattrs
  · rw [if_pos hx, List.append_nil, Finset.insert_eq_self.mpr hx]
    exact h
  · rw [if_neg hx]
    have hfresh := h.fresh (show "file-xattrs" ∈ recordedSuffixes by decide) hx
    refine h.record rfl rfl (by decide) (.data (by decide) (by decide) hfresh x) rfl ?_ ?_
      (fun _ => Finset.mem_insert_self _ _)
    · intro y hy
      rcases Finset.mem_insert.mp hy with rfl | hy
      · exact .inr ⟨rfl, rfl⟩
      · exact .inl hy
    · rw [forall_recordedSuffixes]
      simp [TarWriter.recorded]

/-- **A content object**: its xattrs, the reference to them, and then the object. -/
theorem Sound.appendContent (h : Sound lib w) {c : Checksum} (hc : c ∉ w.wroteContent)
    (o : FileObject) :
    Sound lib { w with
      wroteContent := insert c w.wroteContent
      wroteXattrs := insert (lib.sha256 o.xattrs) w.wroteXattrs
      out := w.out ++ (xattrsEntries lib w c o.xattrs ++ [contentEntry tar c o]) } := by
  let w₁ : TarWriter := { w with
    wroteXattrs := insert (lib.sha256 o.xattrs) w.wroteXattrs
    out := w.out ++ if lib.sha256 o.xattrs ∈ w.wroteXattrs then []
      else [dataEntry (lib.sha256 o.xattrs) "file-xattrs" o.xattrs] }
  have h₁ : Sound lib w₁ := h.xattrsContent o.xattrs
  obtain ⟨x, hx, hxpath, hxsum⟩ := h₁.xattrs (lib.sha256 o.xattrs) (Finset.mem_insert_self _ _)
  have hout : w.out ++ (xattrsEntries lib w c o.xattrs ++ [contentEntry tar c o])
      = (w₁.out ++ [xattrsLinkEntry c (lib.sha256 o.xattrs)]) ++ [contentEntry tar c o] := by
    rw [xattrsEntries, ← List.append_assoc, ← List.append_assoc]
  have hlinkName : (xattrsLinkEntry c (lib.sha256 o.xattrs)).linkName = some x.path.render := by
    rw [hxpath]
    rfl
  -- the reference names xattrs that are there
  have hlink : MayFollow lib w₁.out (xattrsLinkEntry c (lib.sha256 o.xattrs)) :=
    { link := fun _ => ⟨x, hx, hlinkName⟩
      content := fun c' hpath => by
        have heq := (objectFile_inj (by decide) (by decide) hpath).2
        exact absurd heq (by decide)
      once := fun sfx hsfx c' hpath => by
        have heq := (objectFile_inj (by decide) (onceSuffixes_dot sfx hsfx) hpath).2
        rw [← heq] at hsfx
        exact absurd hsfx (by decide) }
  have hpath : (contentEntry tar c o).path = objectFile c "file" := contentEntry_path c o
  have hfile : MayFollow lib (w₁.out ++ [xattrsLinkEntry c (lib.sha256 o.xattrs)])
      (contentEntry tar c o) :=
    { link := fun hty => by
        cases o <;> exact absurd hty (by simp [contentEntry])
      content := fun c' hpath' => by
        obtain ⟨rfl, _⟩ := objectFile_inj (by decide) (by decide) (hpath.symm.trans hpath')
        exact ⟨w₁.out, _, x, rfl, rfl, rfl, hlinkName, hx, by rw [hxpath, hxsum]⟩
      once := fun sfx hsfx c' hpath' => by
        obtain ⟨rfl, rfl⟩ := objectFile_inj (by decide) (onceSuffixes_dot sfx hsfx)
          (hpath.symm.trans hpath')
        intro e' he' heq
        rw [hpath] at heq
        rcases List.mem_append.mp he' with he' | he'
        · exact h₁.fresh (show "file" ∈ recordedSuffixes by decide) hc e' he' heq
        · rw [List.mem_singleton.mp he'] at heq
          have hsfx' := (objectFile_inj (by decide) (by decide) heq).2
          exact absurd hsfx' (by decide) }
  refine ⟨?_, ?_, ?_, ?_⟩
  · show InOrder _ (w.out ++ _)
    rw [hout]
    exact (h₁.ordered.snoc hlink).snoc hfile
  · intro y hy
    rcases Finset.mem_insert.mp hy with rfl | hy
    · exact ⟨contentEntry tar y o, by simp, hpath⟩
    · obtain ⟨e', he', hpe'⟩ := h.content y hy
      exact ⟨e', List.mem_append_left _ he', hpe'⟩
  · intro y hy
    obtain ⟨e', he', hpe'⟩ := h₁.xattrs y hy
    refine ⟨e', ?_, hpe'⟩
    show e' ∈ w.out ++ _
    rw [hout]
    exact List.mem_append_left _ (List.mem_append_left _ he')
  · intro sfx hsfx y e' he' hpe'
    have hkeeps : ∀ s ∈ recordedSuffixes, w₁.recorded s ⊆ ({ w with
        wroteContent := insert c w.wroteContent
        wroteXattrs := insert (lib.sha256 o.xattrs) w.wroteXattrs
        out := w.out ++ (xattrsEntries lib w c o.xattrs ++ [contentEntry tar c o]) }
          : TarWriter).recorded s := by
      rw [forall_recordedSuffixes]
      simp [TarWriter.recorded, w₁]
    replace he' : e' ∈ w.out ++ _ := he'
    rw [hout] at he'
    rcases List.mem_append.mp he' with he' | he'
    · rcases List.mem_append.mp he' with he' | he'
      · exact hkeeps sfx hsfx (h₁.known sfx hsfx y e' he' hpe')
      · rw [List.mem_singleton.mp he'] at hpe'
        obtain ⟨rfl, rfl⟩ := objectFile_inj (by decide) (recordedSuffixes_dot sfx hsfx) hpe'
        exact Finset.mem_insert_self _ _
    · rw [List.mem_singleton.mp he', hpath] at hpe'
      obtain ⟨rfl, rfl⟩ := objectFile_inj (by decide) (recordedSuffixes_dot sfx hsfx) hpe'
      exact Finset.mem_insert_self _ _

/-- What `append_content` leaves behind: the object is written, and so far in order. -/
theorem appendContent_keepsOrder (h : Sound lib w) {c : Checksum} {a : Path × HeaderBuf}
    {w' : TarWriter} (hrun : appendContent lib tar src c w = .ok a w') :
    Sound lib w' ∧ c ∈ w'.wroteContent ∧ a.1 = objectPath .file c := by
  cases hf : src.files[c]? with
  | none =>
      rw [appendContent_missing hf] at hrun
      exact absurd hrun (by simp)
  | some o =>
      by_cases hc : c ∈ w.wroteContent
      · rw [appendContent_old hf hc] at hrun
        injection hrun with ha hw
        exact ⟨hw ▸ h, hw ▸ hc, by rw [← ha]⟩
      · rw [appendContent_new hf hc] at hrun
        injection hrun with ha hw
        rw [← hw]
        exact ⟨h.appendContent hc o, Finset.mem_insert_self c _, by rw [← ha]⟩

/-- Nothing outside of the repository is an object. -/
theorem ne_objectFile_of_outside {p : Path} (hp : stripPrefix repoPrefix p = none) (c : Checksum)
    (sfx : String) : p ≠ objectFile c sfx := by
  rintro rfl
  rw [objectFile, objectsDir, List.append_assoc, stripPrefix_append] at hp
  exact absurd hp (by simp)

/-- A hard link to a content object that is written. -/
theorem appendContentHardlink_keepsOrder (h : Sound lib w) {c : Checksum} (hc : c ∈ w.wroteContent)
    {hb : HeaderBuf} {dest : Path} (hdest : stripPrefix repoPrefix (tarPath dest) = none)
    {u : Unit} {w' : TarWriter}
    (hrun : appendContentHardlink tar (objectPath .file c) hb dest w = .ok u w') :
    Sound lib w' ∧ c ∈ w'.wroteContent := by
  obtain ⟨n, _, rfl⟩ := appendContentHardlink_ok hrun
  refine ⟨h.other (fun sfx _ c' => ?_) (fun hty => ?_), hc⟩
  · rw [hardlinkEntry_path]
    exact ne_objectFile_of_outside hdest c' sfx
  · obtain ⟨e, he, hpath⟩ := h.content c hc
    refine ⟨e, he, ?_⟩
    rw [hpath]
    rw [hardlinkEntry] at hty ⊢
    by_cases hempty : hb.entryType = .regular ∧ n = 0
    · rw [if_pos hempty] at hty
      exact absurd hty (by simp)
    · rw [if_neg hempty]
      rfl

/-- The links of one object. -/
theorem links_keepOrder {c : Checksum} {hb : HeaderBuf} {paths : List Path}
    (hpaths : ∀ p ∈ paths, stripPrefix repoPrefix (tarPath (pathForTarV1 p)) = none)
    (h : Sound lib w) (hc : c ∈ w.wroteContent) {u : PUnit} {w' : TarWriter}
    (hrun : forM paths (fun path => appendContentHardlink tar (objectPath .file c) hb
      (pathForTarV1 path)) w = .ok u w') : Sound lib w' := by
  induction paths generalizing w with
  | nil =>
      injection hrun with _ hw
      exact hw ▸ h
  | cons p paths ih =>
      rw [List.forM_cons] at hrun
      obtain ⟨_, w₁, hlink, hrest⟩ := bind_ok hrun
      obtain ⟨h₁, hc₁⟩ := appendContentHardlink_keepsOrder h hc (hpaths p (List.mem_cons_self ..)) hlink
      exact ih (fun q hq => hpaths q (List.mem_cons_of_mem _ hq)) h₁ hc₁ hrest

end Steps

-- ── The walk and the chunk ────────────────────────────────────────────────────

section Walk

variable {lib : Libostree} {tar : TarCrate} {src : Repo} {c : Checksum} {commit : Commit}
  {w w' : TarWriter} {u : Unit}

/-- **The rule for the walk**: what every step preserves, the walk preserves.  `D` is what is
    known of the directories that it enters. -/
theorem appendDirtree_preserves {I : TarWriter → Prop} {D : Bool → Path → Checksum → Prop}
    (hsub : ∀ b p c d s, D b p c → src.dirtrees[c]? = some d → s ∈ d.dirs →
      ¬ (b = true ∧ s.1 = "sysroot") → D false (mapPath (p.join s.1)) s.2.1)
    (hdirtree : ∀ c data w u w', I w → appendDirtreeObj c data w = .ok u w' → I w')
    (hdirmeta : ∀ c data w u w', I w → appendDirmetaObj c data w = .ok u w' → I w')
    (hfile : ∀ b p c d f w u w', D b p c → src.dirtrees[c]? = some d → f ∈ d.files → I w →
      appendFile lib tar src p f w = .ok u w' → I w')
    (hdir : ∀ b p c d s m w, D b p c → src.dirtrees[c]? = some d → s ∈ d.dirs →
      ¬ (b = true ∧ s.1 = "sysroot") → I w →
      I { w with out := w.out ++ [dirEntry (mapPath (p.join s.1)) m] })
    (hvar : ∀ w, I w → I { w with wroteVartmp := true })
    (fuel : Nat) {b : Bool} {p : Path} {c : Checksum} (hD : D b p c) (hw : I w)
    (hrun : appendDirtree lib tar src fuel p c b w = .ok u w') : I w' := by
  induction fuel generalizing b p c w u w' with
  | zero => exact absurd hrun (by simp [appendDirtree])
  | succ fuel ih =>
      rw [appendDirtree] at hrun
      obtain ⟨d, _, hload, hrun₁⟩ := bind_ok hrun
      obtain ⟨hloaded, rfl⟩ := liftR_eq_ok hload
      have hd : src.dirtrees[c]? = some d := okOr_eq_ok.mp hloaded
      obtain ⟨_, w₁, hobj, hrun₂⟩ := bind_ok hrun₁
      have hw₁ := hdirtree _ _ _ _ _ hw hobj
      obtain ⟨_, w₂, hfiles, hrun₃⟩ := bind_ok hrun₂
      have hw₂ : I w₂ := by
        rw [appendFiles] at hfiles
        obtain ⟨_, _, hget, hfiles₁⟩ := bind_ok hfiles
        injection hget with hget hgetw
        subst hgetw hget
        by_cases hb : w₁.structureOnly = true
        · rw [if_pos hb] at hfiles₁
          injection hfiles₁ with _ hfiles₁
          exact hfiles₁ ▸ hw₁
        · rw [if_neg hb] at hfiles₁
          refine forM_invariant (fun f hf s s' u hs hstep => ?_) hw₁ hfiles₁
          exact hfile _ _ _ _ _ _ _ _ hD hd hf hs hstep
      obtain ⟨_, w₃, hnote, hrun₄⟩ := bind_ok hrun₃
      have hw₃ : I w₃ := by
        rw [noteVartmp] at hnote
        by_cases hp : p = [.normal "var", .normal "tmp"]
        · rw [if_pos hp] at hnote
          injection hnote with _ hnote
          exact hnote ▸ hvar _ hw₂
        · rw [if_neg hp] at hnote
          injection hnote with _ hnote
          exact hnote ▸ hw₂
      refine forM_invariant (fun s hs t t' u ht hstep => ?_) hw₃ hrun₄
      obtain ⟨m, _, hloadm, hstep₁⟩ := bind_ok hstep
      obtain ⟨_, rfl⟩ := liftR_eq_ok hloadm
      obtain ⟨_, t₁, hmeta, hstep₂⟩ := bind_ok hstep₁
      have ht₁ := hdirmeta _ _ _ _ _ ht hmeta
      by_cases hskip : b = true ∧ s.1 = "sysroot"
      · rw [if_pos hskip] at hstep₂
        injection hstep₂ with _ hstep₂
        exact hstep₂ ▸ ht₁
      · rw [if_neg hskip] at hstep₂
        obtain ⟨_, t₂, hemit, hstep₃⟩ := bind_ok hstep₂
        injection hemit with _ hemit
        have ht₂ : I t₂ := hemit ▸ hdir _ _ _ _ _ m _ hD hd hs hskip ht₁
        exact ih (hsub _ _ _ _ _ hD hd hs hskip) ht₂ hstep₃

/-- The walk keeps the order. -/
theorem appendDirtree_keepsOrder {fuel : Nat} {b : Bool} {p : Path} (hp : CheckoutDir b p)
    (hw : Sound lib w) (hrun : appendDirtree lib tar src fuel p c b w = .ok u w') :
    Sound lib w' := by
  refine appendDirtree_preserves (I := Sound lib) (D := fun b p _ => CheckoutDir b p)
    ?_ ?_ ?_ ?_ ?_ ?_ fuel hp hw hrun
  · intro b p c d s hp _ _ hskip
    exact hp.sub hskip
  · intro c data w u w' h hobj
    have hstep := appendDirtreeObj_keepsOrder c data w h
    rw [hobj] at hstep
    exact hstep
  · intro c data w u w' h hobj
    have hstep := appendDirmetaObj_keepsOrder c data w h
    rw [hobj] at hstep
    exact hstep
  · intro b p c d f w u w' hp _ _ h hfile
    rw [appendFile] at hfile
    obtain ⟨a, w₁, hcontent, hlink⟩ := bind_ok hfile
    obtain ⟨h₁, hc, ha⟩ := appendContent_keepsOrder h hcontent
    obtain ⟨objpath, hb⟩ := a
    obtain rfl : objpath = objectPath .file f.2 := ha
    exact (appendContentHardlink_keepsOrder h₁ hc (hp.file f.1) hlink).1
  · intro b p c d s m w hp _ _ hskip h
    obtain ⟨n, rest, hmap, hn⟩ := hp.sub hskip
    refine h.other (fun sfx _ c' => ?_) (fun hty => absurd hty (by simp [dirEntry]))
    show tarPath (mapPath (p.join s.1)) ≠ _
    rw [hmap]
    exact ne_objectFile_of_outside (stripPrefix_repoPrefix_of_ne hn rest) c' sfx
  · intro w h
    exact ⟨h.ordered, h.content, h.xattrs, h.known⟩

/-- `/var/tmp` keeps the order. -/
theorem appendStandardVar_keepsOrder (h : Sound lib w) (hrun : appendStandardVar w = .ok u w') :
    Sound lib w' := by
  rw [appendStandardVar, bind_of_ok (get_run _)] at hrun
  by_cases hv : w.wroteVartmp = true
  · rw [if_pos hv] at hrun
    injection hrun with _ hrun
    exact hrun ▸ h
  · rw [if_neg hv] at hrun
    injection hrun with _ hrun
    rw [← hrun]
    refine h.other (fun sfx _ c' => ?_) (fun hty => absurd hty (by simp))
    exact ne_objectFile_of_outside rfl c' sfx

/-- **A chunk keeps the order**, when its paths stay out of the repository. -/
theorem writeChunk_keepsOrder {m : ChunkMapping}
    (hpaths : ∀ (x : Checksum) v, m[x]? = some v → ∀ p ∈ v.2,
      stripPrefix repoPrefix (tarPath (pathForTarV1 p)) = none)
    (h : Sound lib w) (hrun : writeChunk lib tar src m w = .ok u w') : Sound lib w' := by
  rw [writeChunk_eq] at hrun
  refine forM_invariant (fun item hitem t t' u ht hstep => ?_) h hrun
  obtain ⟨x, v⟩ := item
  rw [writeItem] at hstep
  obtain ⟨a, t₁, hcontent, hlinks⟩ := bind_ok hstep
  obtain ⟨ht₁, hx, ha⟩ := appendContent_keepsOrder ht hcontent
  obtain ⟨objpath, hb⟩ := a
  obtain rfl : objpath = objectPath .file x := ha
  exact links_keepOrder (hpaths x v (Std.ExtTreeMap.mem_toList_iff.mp hitem)) ht₁ hx hlinks

-- ── The head of a stream ──────────────────────────────────────────────────────

/-- Several entries that are no objects. -/
theorem Sound.others (h : Sound lib w) {es : List Entry}
    (hes : ∀ e ∈ es, (∀ c sfx, e.path ≠ objectFile c sfx) ∧ e.header.entryType ≠ .link) :
    Sound lib { w with out := w.out ++ es } := by
  induction es generalizing w with
  | nil =>
      rw [List.append_nil]
      exact h
  | cons e es ih =>
      obtain ⟨hpath, hlink⟩ := hes e (List.mem_cons_self ..)
      have hone : Sound lib { w with out := w.out ++ [e] } :=
        h.other (fun sfx _ c => hpath c sfx) (fun hty => absurd hty hlink)
      have hall := ih hone (fun e' he' => hes e' (List.mem_cons_of_mem _ he'))
      simp only [List.append_assoc, List.singleton_append] at hall
      exact hall

/-- The repository structure has no objects in it. -/
theorem repoStructure_other : ∀ e ∈ repoStructureEntries,
    (∀ c sfx, e.path ≠ objectFile c sfx) ∧ e.header.entryType ≠ .link := by
  intro e he
  constructor
  · intro c sfx hpath
    have hlen := repoStructure_length e.path (List.mem_map_of_mem he)
    rw [hpath] at hlen
    exact absurd hlen (by simp [objectFile, objectsDir, repoPrefix])
  · have hlinks : ∀ e ∈ repoStructureEntries, e.header.entryType ≠ .link := by decide +kernel
    exact hlinks e he

/-- The entries before the commit object. -/
theorem prelude_other (m : DirMeta) : ∀ e ∈ preludeEntries m,
    (∀ c sfx, e.path ≠ objectFile c sfx) ∧ e.header.entryType ≠ .link := by
  intro e he
  rcases List.mem_cons.mp he with rfl | he
  · refine ⟨fun c sfx hpath => ?_, by simp [dirEntry]⟩
    have hlen := congrArg List.length hpath
    exact absurd hlen (by simp [dirEntry, tarPath, tarPathPrefixV0, objectFile, objectsDir, repoPrefix])
  · exact repoStructure_other e he

/-- **The head of a stream is in order.** -/
theorem headWriter_sound (b : Bool) (m : DirMeta) : Sound lib (headWriter lib src b c commit m) := by
  have hprelude : Sound lib { structureOnly := b, wroteInitdirs := true, out := preludeEntries m } :=
    (show Sound lib { structureOnly := b, wroteInitdirs := true } from
      ⟨InOrder.nil, (Sound.empty lib b).content, (Sound.empty lib b).xattrs,
        (Sound.empty lib b).known⟩).others (prelude_other m)
  have hcommit : Sound lib {
      structureOnly := b
      wroteInitdirs := true
      out := preludeEntries m ++ [dataEntry c "commit" (lib.commit.toBytes commit)] } := by
    have hfresh : ∀ e ∈ preludeEntries m, e.path ≠ objectFile c "commit" :=
      fun e he => (prelude_other m e he).1 c "commit"
    refine hprelude.record (e := dataEntry c "commit" (lib.commit.toBytes commit)) rfl rfl (by decide)
      (.data (by decide) (by decide) hfresh _) rfl (fun x hx => .inl hx) ?_
      (fun h => absurd h (by decide))
    rw [forall_recordedSuffixes]
    simp [TarWriter.recorded]
  have hhead : Sound lib {
      structureOnly := b
      wroteInitdirs := true
      out := preludeEntries m ++ headEntries lib c commit src.commitmetas[c]? } := by
    rw [headEntries]
    cases src.commitmetas[c]? with
    | none => exact hcommit
    | some d =>
        have hmeta := hcommit.other (e := dataEntry c "commitmeta" (lib.dict.toBytes d))
          (fun sfx hsfx c' hpath => by
            have hdot : ∀ s ∈ onceSuffixes ++ recordedSuffixes, '.' ∉ s.toList := by decide
            have heq := (objectFile_inj (by decide) (hdot sfx hsfx) hpath).2
            rw [← heq] at hsfx
            exact absurd hsfx (by decide))
          (fun hty => absurd hty (by simp [dataEntry, defaultHeader]))
        simp only [List.append_assoc] at hmeta
        exact hmeta
  have hfresh := hhead.fresh (show "dirmeta" ∈ recordedSuffixes by decide) (c := commit.dirmeta)
    (Finset.notMem_empty _)
  refine hhead.record (e := dataEntry commit.dirmeta "dirmeta" (lib.dirmeta.toBytes m))
    (by rw [headWriter, List.append_assoc]) rfl (by decide)
    (.data (by decide) (by decide) hfresh _) rfl (fun x hx => .inl hx) ?_
    (fun _ => Finset.mem_singleton_self _)
  rw [forall_recordedSuffixes]
  simp [TarWriter.recorded, headWriter]

/-- **`write_commit` keeps the order.** -/
theorem writeCommit_sound {fuel : Nat} {b : Bool}
    (hrun : writeCommit lib tar src fuel c commit { structureOnly := b } = .ok u w') :
    Sound lib w' := by
  cases hm : src.dirmetas[commit.dirmeta]? with
  | none =>
      rw [writeCommit, Repo.loadDirmeta, hm, okOr, bind_of_error (liftR_error _ _)] at hrun
      exact absurd hrun (by simp)
  | some m =>
      rw [writeCommit_head hm b fuel] at hrun
      obtain ⟨_, w₁, hwalk, hvar⟩ := bind_ok hrun
      have h₁ := appendDirtree_keepsOrder (show CheckoutDir true tarPathPrefixV0 from rfl)
        (headWriter_sound b m) hwalk
      exact appendStandardVar_keepsOrder h₁ hvar

end Walk

-- ── Main result ───────────────────────────────────────────────────────────────

section Exports

variable {lib : Libostree} {tar : TarCrate} {src : Repo} {c : Checksum} {commit : Commit}

theorem runWriter_eq_ok {x : ExportM Unit} {es : List Entry} (h : runWriter x = .ok es) :
    ∃ u w, x {} = .ok u w ∧ es = w.out := by
  rw [runWriter] at h
  cases hx : x {} with
  | ok u w =>
      rw [hx] at h
      injection h with h
      exact ⟨u, w, rfl, h.symm⟩
  | error e w =>
      rw [hx] at h
      exact absurd h (by simp)

/-- The paths of a part of a commit stay out of the repository. -/
theorem PartOf.outside_repo {fuel : Nat} {m : ChunkMapping}
    (hm : PartOf src.toObjects fuel commit m)
    (hfile : ∀ d, src.dirtrees[commit.contents]? = some d → ∀ f ∈ d.files, f.1 ≠ "sysroot")
    (hroot : SysrootEmpty src.toObjects commit) (x : Checksum) (v : Nat × List Path)
    (hv : m[x]? = some v) : ∀ p ∈ v.2, stripPrefix repoPrefix (tarPath (pathForTarV1 p)) = none := by
  intro p hp
  obtain ⟨ns, hns, hhead⟩ := hm.outside hfile hroot hv hp
  rw [hns]
  cases ns with
  | nil => rfl
  | cons n ns =>
      have hne : n ≠ "sysroot" := fun h => hhead (by rw [h]; rfl)
      show (if Component.normal "sysroot" = Component.normal n then _ else none) = none
      rw [if_neg (fun h => hne (Component.normal.inj h).symm)]

/-- **Every exported stream is in order**: `export_commit`, and for every part of the commit
    `export_chunk` and `export_final_chunk`. -/
theorem exports_inOrder (hcommit : src.commits[c]? = some commit)
    (hfile : ∀ d, src.dirtrees[commit.contents]? = some d → ∀ f ∈ d.files, f.1 ≠ "sysroot")
    (hroot : SysrootEmpty src.toObjects commit) :
    (∀ fuel rev es, src.requireRev rev = .ok c → exportCommit lib tar src fuel rev = .ok es →
      InOrder (MayFollow lib) es) ∧
    (∀ fuel m es, PartOf src.toObjects fuel commit m → exportChunk lib tar src c m = .ok es →
      InOrder (MayFollow lib) es) ∧
    (∀ fuel fuel' remainder es, PartOf src.toObjects fuel commit remainder.content →
      exportFinalChunk lib tar src fuel' c remainder = .ok es → InOrder (MayFollow lib) es) := by
  refine ⟨?_, ?_, ?_⟩
  · intro fuel rev es hrev h
    rw [exportCommit, hrev, bind_ok_eq, Repo.loadCommit, hcommit, okOr_some, bind_ok_eq] at h
    obtain ⟨u, w, hrun, rfl⟩ := runWriter_eq_ok h
    exact (writeCommit_sound hrun).ordered
  · intro fuel m es hm h
    rw [exportChunk, Repo.loadCommit, hcommit, okOr_some, bind_ok_eq] at h
    obtain ⟨u, w, hrun, rfl⟩ := runWriter_eq_ok h
    obtain ⟨_, w₁, hstructure, hchunk⟩ := bind_ok hrun
    rw [writeRepoStructure_run rfl] at hstructure
    injection hstructure with _ hstructure
    have h₁ : Sound lib { wroteInitdirs := true, out := repoStructureEntries } :=
      (show Sound lib { wroteInitdirs := true } from
        ⟨InOrder.nil, (Sound.empty lib false).content, (Sound.empty lib false).xattrs,
          (Sound.empty lib false).known⟩).others repoStructure_other
    have h₂ : Sound lib w₁ := hstructure ▸ h₁
    exact (writeChunk_keepsOrder (hm.outside_repo hfile hroot) h₂ hchunk).ordered
  · intro fuel fuel' remainder es hm h
    rw [exportFinalChunk, Repo.loadCommit, hcommit, okOr_some, bind_ok_eq] at h
    obtain ⟨u, w, hrun, rfl⟩ := runWriter_eq_ok h
    obtain ⟨_, w₁, hset, hrun₁⟩ := bind_ok hrun
    injection hset with _ hset
    subst hset
    obtain ⟨_, w₂, hhead, hrun₂⟩ := bind_ok hrun₁
    have h₂ : Sound lib w₂ := writeCommit_sound hhead
    obtain ⟨_, w₃, hunset, hchunk⟩ := bind_ok hrun₂
    injection hunset with _ hunset
    have h₃ : Sound lib w₃ := hunset ▸ ⟨h₂.ordered, h₂.content, h₂.xattrs, h₂.known⟩
    exact (writeChunk_keepsOrder (hm.outside_repo hfile hroot) h₃ hchunk).ordered

end Exports

/-- The small commit is exported in order. -/
theorem sampleCommit_inOrder : ∃ es, exportCommit sampleTables.lib sampleTar sampleRepo 2
    sampleCommitSum = .ok es ∧ InOrder (MayFollow sampleTables.lib) es := by
  obtain ⟨es, hes⟩ := sampleCommit_exported
  have hfile : ∀ d, sampleRepo.dirtrees[sampleCommit.contents]? = some d →
      ∀ f ∈ d.files, f.1 ≠ "sysroot" := fun d hd f hf => (sampleCommit_plainRoot.files d hd f hf).2
  have hall := @exports_inOrder sampleTables.lib sampleTar _ _ _ lookup_sampleCommit hfile
    sampleCommit_plainRoot.sysroot
  exact ⟨es, hes, hall.1 2 _ es sampleCommit_rev hes⟩

end OstreeExt.Tar
