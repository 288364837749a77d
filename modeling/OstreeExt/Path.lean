import OstreeExt.Prelude

/-!
# Unix paths

`camino::Utf8Path` up to the equality of `std::path`: the list of components.  Parsing
drops empty and interior `.` components, as the `components` iterator does.
-/

namespace OstreeExt

/-- One path component. -/
inductive Component where
  | rootDir
  | curDir
  | parentDir
  | normal (s : String)
  deriving DecidableEq, Repr

/-- A path, by its components. -/
abbrev Path := List Component

/-- The pieces between occurrences of `c`. -/
def splitChar (c : Char) : List Char → List (List Char)
  | [] => [[]]
  | d :: s =>
      if d = c then [] :: splitChar c s
      else match splitChar c s with
        | [] => [[d]]
        | p :: ps => (d :: p) :: ps

/-- Pieces joined by `c`. -/
def joinChar (c : Char) : List (List Char) → List Char
  | [] => []
  | [p] => p
  | p :: q :: ps => p ++ c :: joinChar c (q :: ps)

theorem splitChar_not_mem {c : Char} {p : List Char} (hp : c ∉ p) : splitChar c p = [p] := by
  induction p with
  | nil => rfl
  | cons d p ih =>
      have hd : d ≠ c := fun h => hp (h ▸ List.mem_cons_self ..)
      rw [splitChar, if_neg hd, ih (fun h => hp (List.mem_cons_of_mem _ h))]

theorem splitChar_append {c : Char} {p : List Char} (hp : c ∉ p) (s : List Char) :
    splitChar c (p ++ c :: s) = p :: splitChar c s := by
  induction p with
  | nil => simp [splitChar]
  | cons d p ih =>
      have hd : d ≠ c := fun h => hp (h ▸ List.mem_cons_self ..)
      rw [List.cons_append, splitChar, if_neg hd, ih (fun h => hp (List.mem_cons_of_mem _ h))]

/-- Splitting undoes joining when no piece holds the separator. -/
theorem splitChar_joinChar {c : Char} {ps : List (List Char)} (hne : ps ≠ [])
    (h : ∀ p ∈ ps, c ∉ p) : splitChar c (joinChar c ps) = ps := by
  induction ps with
  | nil => exact absurd rfl hne
  | cons p ps ih =>
      have hp := h p (List.mem_cons_self ..)
      cases ps with
      | nil => exact splitChar_not_mem hp
      | cons q ps =>
          rw [joinChar, splitChar_append hp,
            ih (List.cons_ne_nil _ _) (fun r hr => h r (List.mem_cons_of_mem _ hr))]

/-- There is at least one piece. -/
theorem splitChar_ne_nil (c : Char) (s : List Char) : splitChar c s ≠ [] := by
  cases s with
  | nil => simp [splitChar]
  | cons d s =>
      rw [splitChar]
      by_cases hd : d = c
      · rw [if_pos hd]
        exact List.cons_ne_nil _ _
      · rw [if_neg hd]
        cases splitChar c s with
        | nil => exact List.cons_ne_nil _ _
        | cons p ps => exact List.cons_ne_nil _ _

/-- A separator in front starts a new piece. -/
theorem splitChar_cons_self (c : Char) (s : List Char) :
    splitChar c (c :: s) = [] :: splitChar c s := by
  rw [splitChar, if_pos rfl]

/-- Any other character belongs to the first piece. -/
theorem splitChar_cons_of_ne {c d : Char} (hd : d ≠ c) (s : List Char) :
    ∃ p ps, splitChar c s = p :: ps ∧ splitChar c (d :: s) = (d :: p) :: ps := by
  obtain ⟨p, ps, hps⟩ := List.exists_cons_of_ne_nil (splitChar_ne_nil c s)
  refine ⟨p, ps, hps, ?_⟩
  rw [splitChar, if_neg hd, hps]

/-- Joining undoes splitting. -/
theorem joinChar_splitChar (c : Char) (s : List Char) : joinChar c (splitChar c s) = s := by
  induction s with
  | nil => rfl
  | cons d s ih =>
      by_cases hd : d = c
      · subst hd
        obtain ⟨p, ps, hps⟩ := List.exists_cons_of_ne_nil (splitChar_ne_nil d s)
        rw [splitChar_cons_self, hps, joinChar, ← hps, ih, List.nil_append]
      · obtain ⟨p, ps, hs, hcons⟩ := splitChar_cons_of_ne hd s
        rw [hs] at ih
        rw [hcons]
        cases ps with
        | nil => rw [joinChar] at ih ⊢; rw [ih]
        | cons q qs => rw [joinChar] at ih ⊢; rw [List.cons_append, ih]

/-- A text ends in the separator when its last piece, other than the first, is empty. -/
theorem getLast?_eq_separator (c : Char) (s : List Char) :
    s.getLast? = some c ↔ (splitChar c s).tail.getLast? = some [] := by
  induction s with
  | nil => simp [splitChar]
  | cons d s ih =>
      by_cases hd : d = c
      · subst hd
        rw [splitChar_cons_self, List.tail_cons]
        obtain ⟨p, ps, hps⟩ := List.exists_cons_of_ne_nil (splitChar_ne_nil d s)
        cases s with
        | nil => simp [splitChar]
        | cons e s =>
            rw [List.getLast?_cons_cons, ih, hps, List.tail_cons]
            cases ps with
            | nil =>
                -- the text after the separator has one piece, which is not empty
                have hjoin := joinChar_splitChar d (e :: s)
                rw [hps, joinChar] at hjoin
                rw [hjoin]
                simp
            | cons q qs => rw [List.getLast?_cons_cons]
      · obtain ⟨p, ps, hs, hcons⟩ := splitChar_cons_of_ne hd s
        rw [hcons, List.tail_cons]
        rw [hs, List.tail_cons] at ih
        cases s with
        | nil =>
            have hps : ps = [] := by
              rw [splitChar] at hs
              injection hs with _ h
              exact h.symm
            rw [hps]
            simp [hd]
        | cons e s => rw [List.getLast?_cons_cons, ih]

/-- What stands in front of a text becomes part of its first piece. -/
theorem splitChar_prepend {c : Char} {p s q : List Char} {qs : List (List Char)} (hp : c ∉ p)
    (hs : splitChar c s = q :: qs) : splitChar c (p ++ s) = (p ++ q) :: qs := by
  induction p with
  | nil => exact hs
  | cons d p ih =>
      have hd : d ≠ c := fun h => hp (h ▸ List.mem_cons_self ..)
      rw [List.cons_append, splitChar, if_neg hd, ih (fun h => hp (List.mem_cons_of_mem _ h))]
      rfl

/-- A separator separates the pieces of two texts. -/
theorem splitChar_separated (c : Char) (a b : List Char) :
    splitChar c (a ++ c :: b) = splitChar c a ++ splitChar c b := by
  induction a with
  | nil => exact splitChar_cons_self c b
  | cons d a ih =>
      by_cases hd : d = c
      · subst hd
        rw [List.cons_append, splitChar_cons_self, splitChar_cons_self, ih, List.cons_append]
      · obtain ⟨p, ps, hps, hcons⟩ := splitChar_cons_of_ne hd a
        rw [hcons, List.cons_append, splitChar, if_neg hd, ih, hps]
        rfl

/-- Joined pieces, at the place where two lists of them meet. -/
theorem joinChar_append {c : Char} {ps qs : List (List Char)} (hps : ps ≠ []) (hqs : qs ≠ []) :
    joinChar c (ps ++ qs) = joinChar c ps ++ c :: joinChar c qs := by
  induction ps with
  | nil => exact absurd rfl hps
  | cons p ps ih =>
      cases ps with
      | nil =>
          obtain ⟨q, qs, rfl⟩ := List.exists_cons_of_ne_nil hqs
          rfl
      | cons p' ps =>
          show p ++ c :: joinChar c (p' :: ps ++ qs) = _
          rw [ih (by simp), joinChar, List.append_assoc, List.cons_append]

/-- **The pieces of a text are the first pieces of another one**, with more to come, if a
    separator follows it there. -/
theorem splitChar_properPrefix {c : Char} {a b : List Char} :
    (splitChar c a <+: splitChar c b ∧ splitChar c a ≠ splitChar c b) ↔ ∃ t, b = a ++ c :: t := by
  constructor
  · rintro ⟨⟨qs, hqs⟩, hne⟩
    have hmore : qs ≠ [] := by
      rintro rfl
      exact hne (by rw [← hqs, List.append_nil])
    refine ⟨joinChar c qs, ?_⟩
    rw [← joinChar_splitChar c b, ← hqs, joinChar_append (splitChar_ne_nil c a) hmore,
      joinChar_splitChar]
  · rintro ⟨t, rfl⟩
    rw [splitChar_separated]
    refine ⟨List.prefix_append _ _, fun h => splitChar_ne_nil c t ?_⟩
    exact List.append_cancel_left (h.symm.trans (List.append_nil _).symm)

/-- No piece holds the separator. -/
theorem not_mem_of_mem_splitChar {c : Char} {s p : List Char} (h : p ∈ splitChar c s) : c ∉ p := by
  induction s generalizing p with
  | nil =>
      obtain rfl := List.mem_singleton.mp h
      simp
  | cons d s ih =>
      rw [splitChar] at h
      split at h
      · rcases List.mem_cons.mp h with rfl | h
        · simp
        · exact ih h
      next hd =>
      cases hs : splitChar c s with
      | nil =>
          rw [hs] at h
          obtain rfl := List.mem_singleton.mp h
          simpa [eq_comm] using hd
      | cons q ps =>
          rw [hs] at h ih
          rcases List.mem_cons.mp h with rfl | h
          · rw [List.mem_cons]
            rintro (heq | hq)
            · exact hd heq.symm
            · exact ih (List.mem_cons_self ..) hq
          · exact ih (List.mem_cons_of_mem _ h)

namespace Path

/-- The component that a piece of the text stands for; `None` for the pieces that the
    iterator skips. -/
def componentOf (p : List Char) : Option Component :=
  if p = [] then none
  else if p = ['.'] then none
  else if p = ['.', '.'] then some .parentDir
  else some (.normal (String.ofList p))

/-- The root, or a leading `.`, which the iterator does not skip. -/
def leading (text : List Char) (parts : List (List Char)) : Path :=
  if text.head? = some '/' then [.rootDir]
  else if parts.head? = some ['.'] then [.curDir]
  else []

/-- `Utf8Path::components`. -/
def parse (s : String) : Path :=
  let parts := splitChar '/' s.toList
  leading s.toList parts ++ parts.filterMap componentOf

/-- The text of one component other than the root. -/
def Component.text : Component → List Char
  | .rootDir => []
  | .curDir => ['.']
  | .parentDir => ['.', '.']
  | .normal s => s.toList

/-- The path as text. -/
def render (p : Path) : String :=
  String.ofList (match p with
    | .rootDir :: rest => '/' :: joinChar '/' (rest.map Component.text)
    | _ => joinChar '/' (p.map Component.text))

/-- `Utf8Path::file_name`. -/
def fileName (p : Path) : Option String :=
  match p.getLast? with
  | some (.normal s) => some s
  | _ => none

/-- `Utf8Path::parent`. -/
def parent (p : Path) : Option Path :=
  match p.getLast? with
  | none | some .rootDir => none
  | some _ => some p.dropLast

/-- `Utf8Path::join` with a single file name. -/
def join (p : Path) (name : String) : Path := p ++ [.normal name]

@[simp] theorem fileName_append_normal (p : Path) (s : String) :
    fileName (p ++ [.normal s]) = some s := by
  simp [fileName]

@[simp] theorem parent_append_normal (p : Path) (s : String) :
    parent (p ++ [.normal s]) = some p := by
  simp [parent]

/-- A name that the component iterator gives back as it is. -/
def IsFileName (s : String) : Prop :=
  s.toList ≠ [] ∧ s.toList ≠ ['.'] ∧ s.toList ≠ ['.', '.'] ∧ '/' ∉ s.toList

theorem componentOf_isFileName {s : String} (h : IsFileName s) :
    componentOf s.toList = some (.normal s) := by
  unfold componentOf
  rw [if_neg h.1, if_neg h.2.1, if_neg h.2.2.1, String.ofList_toList]

/-- A name that reads back, or `..`. -/
def IsPart (c : Component) : Prop := c = .parentDir ∨ ∃ s, c = .normal s ∧ IsFileName s

/-- The piece of text for a part: it stands for the part, and it is neither empty, a lone dot
    nor broken by a slash. -/
theorem componentOf_text {c : Component} (h : IsPart c) :
    componentOf (Component.text c) = some c ∧ Component.text c ≠ [] ∧
      Component.text c ≠ ['.'] ∧ '/' ∉ Component.text c := by
  rcases h with rfl | ⟨s, rfl, hs⟩
  · decide
  · exact ⟨componentOf_isFileName hs, hs.1, hs.2.1, hs.2.2.2⟩

/-- **A relative path reads back from its text.** -/
theorem parse_render_parts {rest : Path} (hne : rest ≠ []) (h : ∀ c ∈ rest, IsPart c) :
    parse (render rest) = rest := by
  obtain ⟨c, cs, rfl⟩ := List.exists_cons_of_ne_nil hne
  have hc := h c (List.mem_cons_self ..)
  obtain ⟨_, hnonempty, hdot, hnoslash⟩ := componentOf_text hc
  have htext : (render (c :: cs)).toList = joinChar '/' ((c :: cs).map Component.text) := by
    rcases hc with rfl | ⟨s, rfl, _⟩
    · exact String.toList_ofList
    · exact String.toList_ofList
  have hsplit : splitChar '/' (joinChar '/' ((c :: cs).map Component.text))
      = (c :: cs).map Component.text := by
    refine splitChar_joinChar (by simp) ?_
    intro p hp
    obtain ⟨d, hd, rfl⟩ := List.mem_map.mp hp
    exact (componentOf_text (h d hd)).2.2.2
  have hcomps : ((c :: cs).map Component.text).filterMap componentOf = c :: cs := by
    rw [List.filterMap_map]
    refine (List.filterMap_congr (g := some) (fun d hd => ?_)).trans List.filterMap_some
    exact (componentOf_text (h d hd)).1
  -- the text starts with the first part: not with a slash, and not with a lone dot
  obtain ⟨d, ds, hd⟩ := List.exists_cons_of_ne_nil hnonempty
  have hslash : d ≠ '/' := fun hds => hnoslash (by rw [hd, hds]; exact List.mem_cons_self ..)
  have hhead : (joinChar '/' ((c :: cs).map Component.text)).head? = some d := by
    cases cs with
    | nil => simp [joinChar, hd]
    | cons m ms => simp [joinChar, hd]
  have hlead : leading (joinChar '/' ((c :: cs).map Component.text))
      ((c :: cs).map Component.text) = [] := by
    unfold leading
    rw [hhead, if_neg (by simp [hslash]), List.map_cons, List.head?_cons,
      if_neg (by simp [hdot])]
  simp only [parse, htext, hsplit]
  rw [hcomps, hlead, List.nil_append]

/-- A relative path of plain names reads back from its text. -/
theorem parse_render {names : List String} (hne : names ≠ [])
    (h : ∀ s ∈ names, IsFileName s) :
    parse (render (names.map Component.normal)) = names.map Component.normal := by
  refine parse_render_parts (by simpa using hne) (fun c hc => ?_)
  obtain ⟨s, hs, rfl⟩ := List.mem_map.mp hc
  exact .inr ⟨s, rfl, h s hs⟩

end Path

end OstreeExt
