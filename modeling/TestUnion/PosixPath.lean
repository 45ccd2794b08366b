import Mathlib.Data.List.DropRight
import Mathlib.Data.List.Infix
import Mathlib.Tactic.Common

/-!
# Path strings

The functions of `posixpath` on strings, and what a path string means.

* `join`, `dirname`, `basename`   the functions of these names; `split` is the pair of the last two;
* `Name`, `Comp`, `components`   a proper file name, and the components between the slashes: `""`
                    and `"."` stay, `".."` goes up, a name goes down;
* `pathOf s`        the path a string without `".."` leads to, innermost name first;
* `Plain`, `Local`, `Normal`   a string without `".."`; also relative; also without empty
                    components and `"."`;
* `pathOf_join`, `Normal.eq_of_pathOf`   joining adds the paths, and a normal string is known by
                    its path;
* `dirname_lt`, `dirname_absolute`   `dirname` makes a relative string shorter, and keeps an
                    absolute one absolute.
-/

namespace PosixPath

abbrev Str := List Char

/-! ## strings -/

def join (a b : Str) : Str :=
  if b.head? = some '/' then b
  else if a = [] ∨ a.getLast? = some '/' then a ++ b
  else a ++ '/' :: b

def dirname (p : Str) : Str :=
  let head := p.rdropWhile (· ≠ '/')
  if head.all (· = '/') then head else head.rdropWhile (· = '/')

def basename (p : Str) : Str := p.rtakeWhile (· ≠ '/')

/-! ## components -/

def IsName (c : Str) : Prop := c ≠ [] ∧ c ≠ ['.'] ∧ c ≠ ['.', '.'] ∧ '/' ∉ c

instance (c : Str) : Decidable (IsName c) := by
  unfold IsName
  infer_instance

abbrev Name := { c : Str // IsName c }

inductive Comp where
  | stay
  | up
  | down (n : Name)
  deriving DecidableEq

def comp (c : Str) : Comp :=
  if h : IsName c then .down ⟨c, h⟩ else if c = ['.', '.'] then .up else .stay

def components (s : Str) : List Comp := (s.splitOn '/').map comp

abbrev Path := List Name

/-- one component, without `".."` -/
def stepTo (p : Path) : Comp → Path
  | .down n => n :: p
  | _ => p

def pathOf (s : Str) : Path := (components s).foldl stepTo []

def Plain (s : Str) : Prop := s ≠ [] ∧ Comp.up ∉ components s

structure Local (s : Str) : Prop where
  relative : s.head? ≠ some '/'
  inside : Comp.up ∉ components s

def Normal (s : Str) : Prop := ∀ c ∈ s.splitOn '/', IsName c

instance (s : Str) : Decidable (Normal s) := by
  unfold Normal
  infer_instance

variable {a b s : Str}

@[simp] theorem comp_name (n : Name) : comp n.1 = .down n := dif_pos n.2

@[simp] theorem components_nil : components [] = [.stay] := rfl

@[simp] theorem components_slash (a b : Str) :
    components (a ++ '/' :: b) = components a ++ components b := by
  unfold components
  rw [List.splitOn_append_cons_self, List.map_append]

@[simp] theorem components_name (n : Name) : components n.1 = [.down n] := by
  unfold components
  rw [List.splitOn_eq_singleton n.2.2.2.2, List.map_singleton, comp_name]

theorem components_ne_nil (s : Str) : components s ≠ [] := by
  unfold components
  rw [Ne, List.map_eq_nil_iff]
  exact List.splitOn_ne_nil _ _

theorem components_slashes (h : ∀ c ∈ s, c = '/') : ∀ c ∈ components s, c = .stay := by
  induction s with
  | nil => simp
  | cons c s ih =>
    rw [h c (List.mem_cons_self ..)]
    have := components_slash [] s
    rw [List.nil_append] at this
    rw [this, components_nil]
    intro c hc
    rcases List.mem_append.mp hc with hc | hc
    · exact List.mem_singleton.mp hc
    · exact ih (fun x hx => h x (List.mem_cons_of_mem _ hx)) c hc

/-! ## paths -/

theorem foldl_stepTo (cs : List Comp) (p : Path) : cs.foldl stepTo p = cs.foldl stepTo [] ++ p := by
  induction cs generalizing p with
  | nil => rfl
  | cons c cs ih =>
    rw [List.foldl_cons, List.foldl_cons, ih, ih (stepTo [] c)]
    cases c <;> simp [stepTo]

theorem foldl_stepTo_stay {cs : List Comp} (h : ∀ c ∈ cs, c = .stay) (p : Path) :
    cs.foldl stepTo p = p := by
  induction cs with
  | nil => rfl
  | cons c cs ih =>
    rw [List.foldl_cons, h c (List.mem_cons_self ..)]
    exact ih fun x hx => h x (List.mem_cons_of_mem _ hx)

@[simp] theorem pathOf_slash (a b : Str) : pathOf (a ++ '/' :: b) = pathOf b ++ pathOf a := by
  unfold pathOf
  rw [components_slash, List.foldl_append, foldl_stepTo]

@[simp] theorem pathOf_name (n : Name) : pathOf n.1 = [n] := by
  unfold pathOf
  rw [components_name]
  rfl

/-- Up to components that stay, joining appends the components. -/
theorem join_slash (hb : b.head? ≠ some '/') (ha : a ≠ []) :
    join a b = a ++ '/' :: b ∨ ∃ c, a = c ++ ['/'] ∧ join a b = c ++ '/' :: b := by
  unfold join
  rw [if_neg hb]
  split
  · next h =>
    have hl := h.resolve_left ha
    obtain ⟨c, rfl⟩ := List.getLast?_eq_some_iff.mp hl
    exact .inr ⟨c, rfl, by simp⟩
  · exact .inl rfl

theorem pathOf_join (hb : b.head? ≠ some '/') (ha : a ≠ []) :
    pathOf (join a b) = pathOf b ++ pathOf a := by
  rcases join_slash hb ha with h | ⟨c, rfl, h⟩
  · rw [h, pathOf_slash]
  · rw [h, pathOf_slash, pathOf_slash]
    rfl

theorem up_mem_join (hb : b.head? ≠ some '/') (ha : a ≠ []) :
    Comp.up ∈ components (join a b) ↔ Comp.up ∈ components a ∨ Comp.up ∈ components b := by
  rcases join_slash hb ha with h | ⟨c, rfl, h⟩
  · simp [h]
  · simp [h]

theorem Plain.join (ha : Plain a) (hb : Local b) : Plain (join a b) := by
  refine ⟨?_, ?_⟩
  · rcases join_slash hb.relative ha.1 with h | ⟨c, _, h⟩ <;> rw [h] <;> simp
  · rw [up_mem_join hb.relative ha.1]
    exact not_or.mpr ⟨ha.2, hb.inside⟩

theorem local_name (n : Name) : Local n.1 := by
  refine ⟨?_, ?_⟩
  · intro h
    exact n.2.2.2.2 (List.mem_of_mem_head? h)
  · simp

theorem pathOf_join_name (ha : a ≠ []) (n : Name) : pathOf (join a n.1) = n :: pathOf a := by
  rw [pathOf_join (local_name n).relative ha, pathOf_name]
  rfl

/-! ## normal strings -/

theorem names_of_isName (l : List Str) (h : ∀ c ∈ l, IsName c) :
    ∃ ns : List Name, l = ns.map Subtype.val ∧ l.map comp = ns.map .down := by
  induction l with
  | nil => exact ⟨[], rfl, rfl⟩
  | cons c l ih =>
    obtain ⟨ns, h1, h2⟩ := ih fun x hx => h x (List.mem_cons_of_mem _ hx)
    have hc : IsName c := h c (List.mem_cons_self ..)
    refine ⟨⟨c, hc⟩ :: ns, ?_, ?_⟩
    · rw [List.map_cons, ← h1]
    · rw [List.map_cons, List.map_cons, h2]
      congr 1
      exact comp_name ⟨c, hc⟩

theorem Normal.components_eq (h : Normal s) : ∃ ns : List Name, s.splitOn '/' = ns.map Subtype.val ∧
    components s = ns.map .down := names_of_isName _ h

theorem Normal.pathOf_eq (h : Normal s) :
    s.splitOn '/' = (pathOf s).reverse.map Subtype.val := by
  obtain ⟨ns, hs, hc⟩ := h.components_eq
  have hp : ∀ (ns : List Name) (p : Path), (ns.map Comp.down).foldl stepTo p = ns.reverse ++ p := by
    intro ns
    induction ns with
    | nil => intro p; rfl
    | cons n ns ih =>
      intro p
      rw [List.map_cons, List.foldl_cons, ih]
      simp [stepTo]
  have hpath : pathOf s = ns.reverse := by
    unfold pathOf
    rw [hc, hp, List.append_nil]
  rw [hs, hpath, List.reverse_reverse]

theorem Normal.eq_intercalate (h : Normal s) :
    s = ['/'].intercalate ((pathOf s).reverse.map Subtype.val) := by
  rw [← h.pathOf_eq, List.intercalate_splitOn]

theorem Normal.eq_of_pathOf (ha : Normal a) (hb : Normal b) (h : pathOf a = pathOf b) : a = b := by
  rw [ha.eq_intercalate, hb.eq_intercalate, h]

theorem Normal.ne_nil (h : Normal s) : s ≠ [] := by
  rintro rfl
  exact (h [] (by simp)).1 rfl

theorem Normal.pathOf_ne_nil (h : Normal s) : pathOf s ≠ [] := by
  intro hp
  have := h.pathOf_eq
  rw [hp] at this
  exact List.splitOn_ne_nil _ _ this

theorem normal_name (n : Name) : Normal n.1 := by
  intro c hc
  rw [List.splitOn_eq_singleton n.2.2.2.2] at hc
  rw [List.mem_singleton.mp hc]
  exact n.2

theorem Normal.slash (ha : Normal a) (hb : Normal b) : Normal (a ++ '/' :: b) := by
  intro c hc
  rw [List.splitOn_append_cons_self] at hc
  rcases List.mem_append.mp hc with hc | hc
  · exact ha c hc
  · exact hb c hc

theorem Normal.local (h : Normal s) : Local s := by
  refine ⟨?_, ?_⟩
  · intro hh
    obtain ⟨r, rfl⟩ : ∃ r, s = '/' :: r := by
      cases s with
      | nil => cases hh
      | cons c r => exact ⟨r, by rw [Option.some.inj hh]⟩
    have hs := List.splitOn_append_cons_self [] r (a := '/')
    rw [List.nil_append, List.splitOn_nil] at hs
    exact (h [] (by rw [hs]; simp)).1 rfl
  · obtain ⟨ns, _, hc⟩ := h.components_eq
    rw [hc]
    simp

/-! ## dirname -/

theorem dirname_cases (s : Str) :
    (∀ c ∈ dirname s, c = '/') ∨ ∃ rest, s = dirname s ++ '/' :: rest := by
  unfold dirname
  by_cases hall : (s.rdropWhile (· ≠ '/')).all (· = '/') = true
  · rw [if_pos hall]
    exact .inl fun c hc => by simpa using List.all_eq_true.mp hall c hc
  · rw [if_neg hall]
    right
    have h1 := List.rdropWhile_append_rtakeWhile (l := s) (p := (· ≠ '/'))
    have h2 := List.rdropWhile_append_rtakeWhile (l := s.rdropWhile (· ≠ '/')) (p := (· = '/'))
    have hne : s.rdropWhile (· ≠ '/') ≠ [] := by
      intro h
      rw [h] at hall
      exact hall rfl
    have hlast := List.rdropWhile_last_not (· ≠ '/') s hne
    cases hr : (s.rdropWhile (· ≠ '/')).rtakeWhile (· = '/') with
    | nil =>
      rw [List.rtakeWhile_eq_nil_iff] at hr
      exact absurd (hr hne) (by simpa using hlast)
    | cons c r =>
      have hc : c = '/' := by
        have := List.mem_rtakeWhile_imp (p := (· = '/')) (l := s.rdropWhile (· ≠ '/')) (x := c)
          (by rw [hr]; exact List.mem_cons_self ..)
        simpa using this
      refine ⟨r ++ s.rtakeWhile (· ≠ '/'), ?_⟩
      conv_lhs => rw [← h1, ← h2, hr, hc]
      simp

theorem dirname_prefix (s : Str) : dirname s <+: s := by
  unfold dirname
  simp only
  split
  · exact List.rdropWhile_prefix _ _
  · exact (List.rdropWhile_prefix _ _).trans (List.rdropWhile_prefix _ _)

/-- An absolute string has an absolute directory name, and so on for ever. -/
theorem dirname_absolute (h : s.head? = some '/') : (dirname s).head? = some '/' := by
  have hkeep {l : Str} {p : Char → Bool} (hl : l.head? = some '/') (hne : l.rdropWhile p ≠ []) :
      (l.rdropWhile p).head? = some '/' := by
    obtain ⟨r, hr⟩ := List.rdropWhile_prefix p l
    rw [← hr, List.head?_append] at hl
    cases hd : l.rdropWhile p with
    | nil => exact absurd hd hne
    | cons c cs =>
      rw [hd] at hl
      exact hl
  have hhead : (s.rdropWhile (· ≠ '/')).head? = some '/' := by
    apply hkeep h
    intro hnil
    have hall := List.rdropWhile_eq_nil_iff.mp hnil '/' (List.mem_of_mem_head? h)
    simp at hall
  unfold dirname
  dsimp only
  split
  · exact hhead
  · next hall =>
    apply hkeep hhead
    intro hnil
    apply hall
    rw [List.all_eq_true]
    exact List.rdropWhile_eq_nil_iff.mp hnil

/-- The directory name of a relative string is shorter. -/
theorem dirname_lt (hne : s ≠ []) (hrel : s.head? ≠ some '/') : (dirname s).length < s.length := by
  rcases dirname_cases s with h | ⟨rest, h⟩
  · have hnil : dirname s = [] := by
      obtain ⟨r, hr⟩ := dirname_prefix s
      cases hd : dirname s with
      | nil => rfl
      | cons c cs =>
        rw [hd] at h hr
        rw [← hr, h c (List.mem_cons_self ..)] at hrel
        exact absurd rfl hrel
    rw [hnil]
    exact List.length_pos_iff.mpr hne
  · have hlen := congrArg List.length h
    rw [List.length_append, List.length_cons] at hlen
    omega

theorem dirname_relative (hrel : s.head? ≠ some '/') : (dirname s).head? ≠ some '/' := by
  intro hh
  obtain ⟨r, hr⟩ := dirname_prefix s
  rw [← hr, List.head?_append, hh] at hrel
  exact hrel rfl

theorem pathOf_dirname (s : Str) : pathOf (dirname s) <:+ pathOf s := by
  rcases dirname_cases s with h | ⟨rest, h⟩
  · unfold pathOf
    rw [foldl_stepTo_stay (components_slashes h)]
    exact List.nil_suffix
  · conv_rhs => rw [h, pathOf_slash]
    exact List.suffix_append _ _

theorem up_dirname (h : Comp.up ∉ components s) : Comp.up ∉ components (dirname s) := by
  rcases dirname_cases s with hs | ⟨rest, hs⟩
  · intro hu
    cases components_slashes hs _ hu
  · rw [hs, components_slash, List.mem_append, not_or] at h
    exact h.1

theorem Plain.dirname (h : Plain s) (hne : dirname s ≠ []) : Plain (dirname s) :=
  ⟨hne, up_dirname h.2⟩

theorem Local.dirname (h : Local s) : Local (dirname s) :=
  ⟨dirname_relative h.relative, up_dirname h.inside⟩

end PosixPath
