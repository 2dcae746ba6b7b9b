import ScratchFormat.Project.Files

/-! Paths as lists of steps. The order of paths is the order of their steps, so two spellings of one
path are equal in it; paths that are put into an ordered list one after another ascend there, and it
does not matter in which order different paths come. A name joined to a path is one more step. -/

namespace ScratchFormat

namespace Path

theorem ite_lt_eq_then (a b : Nat) (o : Ordering) :
    (if a < b then .lt else if b < a then .gt else o) = (Ord.compare a b).then o := by
  rcases Nat.lt_trichotomy a b with hlt | heq | hgt
  · rw [if_pos hlt, Nat.compare_eq_lt.mpr hlt]
    rfl
  · rw [if_neg (heq ▸ Nat.lt_irrefl _), if_neg (heq ▸ Nat.lt_irrefl _), Nat.compare_eq_eq.mpr heq]
    rfl
  · rw [if_neg (Nat.lt_asymm hgt), if_pos hgt, Nat.compare_eq_gt.mpr hgt]
    rfl

theorem compareCodes_eq (as bs : List Nat) :
    compareCodes as bs = List.compareLex Ord.compare as bs := by
  induction as generalizing bs with
  | nil => cases bs <;> rfl
  | cons a as ih =>
    cases bs with
    | nil => rfl
    | cons b bs => rw [compareCodes, List.compareLex_cons_cons, ih, ite_lt_eq_then]

/-- Steps are ordered by their kinds, and two names by their code points. -/
theorem compareStep_eq :
    compareStep = compareLex (compareOn Component.rank) (compareOn Component.codes) := by
  funext a b
  rw [compareStep, ite_lt_eq_then, compareCodes_eq]
  rfl

theorem compareSteps_eq (as bs : List Component) :
    compareSteps as bs = List.compareLex compareStep as bs := by
  induction as generalizing bs with
  | nil => cases bs <;> rfl
  | cons a as ih =>
    cases bs with
    | nil => rfl
    | cons b bs => rw [compareSteps, List.compareLex_cons_cons, ih]

theorem Component.ext {a b : Component} (hrank : a.rank = b.rank) (hcodes : a.codes = b.codes) :
    a = b := by
  cases a with
  | normal name =>
    cases b with
    | normal name' =>
      have hname : name = name' := List.map_inj_right (fun _ _ => UInt8.toNat_inj.mp) |>.mp hcodes
      rw [hname]
    | root | current | parent => cases hrank
  | root | current | parent => cases b <;> first | rfl | cases hrank

instance : Std.TransCmp compareStep := by
  rw [compareStep_eq]
  infer_instance

instance : Std.LawfulEqCmp compareStep where
  eq_of_compare {a b} h := by
    rw [compareStep_eq, compareLex_eq_eq] at h
    exact Component.ext (Std.LawfulEqOrd.eq_of_compare h.1) (Std.LawfulEqOrd.eq_of_compare h.2)

instance : Std.TransCmp compare where
  eq_swap {p q} := by
    rw [compare, compare, compareSteps_eq, compareSteps_eq]
    exact Std.OrientedCmp.eq_swap
  isLE_trans {p q r} hpq hqr := by
    rw [compare, compareSteps_eq] at hpq hqr ⊢
    exact Std.TransCmp.isLE_trans hpq hqr

/-- Paths are equal in the order if they have the same steps. -/
theorem compare_eq_eq_iff {p q : Path} : compare p q = .eq ↔ p.components = q.components := by
  rw [compare, compareSteps_eq]
  exact Std.LawfulEqCmp.compare_eq_iff_eq

variable {p q r : Path} {ps qs : List Path}

theorem insertOrdered_of_lt (h : compare p q = .lt) : insertOrdered p (q :: qs) = p :: q :: qs := by
  rw [insertOrdered, h]

theorem insertOrdered_of_eq (h : compare p q = .eq) : insertOrdered p (q :: qs) = q :: qs := by
  rw [insertOrdered, h]

theorem insertOrdered_of_gt (h : compare p q = .gt) :
    insertOrdered p (q :: qs) = q :: insertOrdered p qs := by
  rw [insertOrdered, h]

/-- Putting a path in adds nothing else, and takes nothing out. -/
theorem mem_insertOrdered : r ∈ insertOrdered p qs → r = p ∨ r ∈ qs := by
  induction qs with
  | nil => exact fun h => .inl (List.mem_singleton.mp h)
  | cons q qs ih =>
    intro h
    cases hcmp : compare p q with
    | lt =>
      rw [insertOrdered_of_lt hcmp] at h
      exact List.mem_cons.mp h
    | eq =>
      rw [insertOrdered_of_eq hcmp] at h
      exact .inr h
    | gt =>
      rw [insertOrdered_of_gt hcmp] at h
      rcases List.mem_cons.mp h with rfl | h
      · exact .inr List.mem_cons_self
      · exact (ih h).imp_right (List.mem_cons_of_mem q)

theorem subset_insertOrdered (p : Path) (qs : List Path) : qs ⊆ insertOrdered p qs := by
  induction qs with
  | nil => exact List.nil_subset _
  | cons q qs ih =>
    cases hcmp : compare p q with
    | lt =>
      rw [insertOrdered_of_lt hcmp]
      exact List.subset_cons_self _ _
    | eq =>
      rw [insertOrdered_of_eq hcmp]
      exact List.Subset.refl _
    | gt =>
      rw [insertOrdered_of_gt hcmp]
      exact List.cons_subset_cons q ih

/-- A path that is put into an ordered list is there, perhaps in another spelling. -/
theorem exists_mem_insertOrdered (p : Path) (qs : List Path) :
    ∃ q ∈ insertOrdered p qs, q.components = p.components := by
  induction qs with
  | nil => exact ⟨p, List.mem_singleton_self p, rfl⟩
  | cons q qs ih =>
    cases hcmp : compare p q with
    | lt =>
      rw [insertOrdered_of_lt hcmp]
      exact ⟨p, List.mem_cons_self, rfl⟩
    | eq =>
      rw [insertOrdered_of_eq hcmp]
      exact ⟨q, List.mem_cons_self, (compare_eq_eq_iff.mp hcmp).symm⟩
    | gt =>
      obtain ⟨r, hr, hsteps⟩ := ih
      rw [insertOrdered_of_gt hcmp]
      exact ⟨r, List.mem_cons_of_mem q hr, hsteps⟩

/-- Each path of a list stands before all later ones in the order of paths, so none is there
twice. -/
def Ascending (ps : List Path) : Prop := ps.Pairwise fun p q => compare p q = .lt

/-- A list stays in order when a path is put into it. -/
theorem ascending_insertOrdered (h : Ascending qs) (p : Path) : Ascending (insertOrdered p qs) := by
  induction qs with
  | nil => exact List.pairwise_singleton _ p
  | cons q qs ih =>
    obtain ⟨hq, hqs⟩ := List.pairwise_cons.mp h
    cases hcmp : compare p q with
    | lt =>
      rw [insertOrdered_of_lt hcmp]
      apply List.Pairwise.cons _ h
      intro r hr
      rcases List.mem_cons.mp hr with rfl | hr
      · exact hcmp
      · exact Std.TransCmp.lt_trans hcmp (hq r hr)
    | eq =>
      rw [insertOrdered_of_eq hcmp]
      exact h
    | gt =>
      rw [insertOrdered_of_gt hcmp]
      apply List.Pairwise.cons _ (ih hqs)
      intro r hr
      rcases mem_insertOrdered hr with rfl | hr
      · exact Std.OrientedCmp.gt_iff_lt.mp hcmp
      · exact hq r hr

/-- One list orders another: it ascends, and it has the paths of the other, each in one spelling. -/
structure Orders (qs ps : List Path) : Prop where
  ascending : Ascending qs
  sound : qs ⊆ ps
  complete : ∀ p ∈ ps, ∃ q ∈ qs, q.components = p.components

theorem Orders.insert (h : Orders qs ps) (p : Path) : Orders (insertOrdered p qs) (ps ++ [p]) where
  ascending := ascending_insertOrdered h.ascending p
  sound := by
    intro r hr
    rcases mem_insertOrdered hr with rfl | hr
    · exact List.mem_append_right ps (List.mem_singleton_self r)
    · exact List.mem_append_left [p] (h.sound hr)
  complete := by
    intro r hr
    rcases List.mem_append.mp hr with hr | hr
    · obtain ⟨q, hq, hsteps⟩ := h.complete r hr
      exact ⟨q, subset_insertOrdered p qs hq, hsteps⟩
    · rw [List.mem_singleton.mp hr]
      exact exists_mem_insertOrdered p qs

def insertAll (qs ps : List Path) : List Path := ps.foldl (fun qs p => insertOrdered p qs) qs

theorem Orders.insertAll {seen : List Path} (h : Orders qs seen) (ps : List Path) :
    Orders (Path.insertAll qs ps) (seen ++ ps) := by
  induction ps generalizing qs seen with
  | nil => rwa [List.append_nil]
  | cons p ps ih =>
    rw [List.append_cons]
    exact ih (h.insert p)

theorem orders_ordered (ps : List Path) : Orders (ordered ps) ps :=
  Orders.insertAll ⟨.nil, List.nil_subset _, fun _ hp => absurd hp List.not_mem_nil⟩ ps

theorem Ascending.nodup (h : Ascending ps) : (ps.map components).Nodup := by
  apply List.pairwise_map.mpr
  apply h.imp
  intro p q hlt heq
  rw [compare_eq_eq_iff.mpr heq] at hlt
  cases hlt

/-- Lists that order the same paths have the same steps. -/
theorem Orders.map_components_eq {ps' qs' : List Path} (h : Orders qs ps) (h' : Orders qs' ps')
    (hsame : ∀ p, p ∈ ps ↔ p ∈ ps') : qs.map components = qs'.map components := by
  have hsub : ∀ {qs qs' ps ps' : List Path}, Orders qs ps → Orders qs' ps' → ps ⊆ ps' →
      qs.map components ⊆ qs'.map components := by
    intro qs qs' ps ps' h h' hsub steps hsteps
    obtain ⟨q, hq, rfl⟩ := List.mem_map.mp hsteps
    obtain ⟨q', hq', heq⟩ := h'.complete q (hsub (h.sound hq))
    exact heq ▸ List.mem_map_of_mem hq'
  have hperm : (qs.map components).Perm (qs'.map components) := by
    apply (List.perm_ext_iff_of_nodup h.ascending.nodup h'.ascending.nodup).mpr
    intro steps
    exact ⟨fun hmem => hsub h h' (fun p => (hsame p).mp) hmem,
      fun hmem => hsub h' h (fun p => (hsame p).mpr) hmem⟩
  have hmap : ∀ {qs : List Path}, Ascending qs →
      (qs.map components).Pairwise fun as bs => compareSteps as bs = .lt :=
    fun h => List.pairwise_map.mpr h
  apply hperm.eq_of_pairwise _ (hmap h.ascending) (hmap h'.ascending)
  intro as bs _ _ hab hba
  rw [compareSteps_eq] at hab hba
  exact absurd hba (Std.OrientedCmp.not_lt_of_lt hab)

/-- Two different paths can be put into a list in either order. -/
theorem insertOrdered_comm_of_lt (h : compare p q = .lt) (ps : List Path) :
    insertOrdered p (insertOrdered q ps) = insertOrdered q (insertOrdered p ps) := by
  have hqp : compare q p = .gt := Std.OrientedCmp.gt_iff_lt.mpr h
  induction ps with
  | nil =>
    rw [insertOrdered, insertOrdered, insertOrdered_of_lt h, insertOrdered_of_gt hqp, insertOrdered]
  | cons r ps ih =>
    cases hqr : compare q r with
    | lt =>
      have hpr : compare p r = .lt := Std.TransCmp.lt_trans h hqr
      rw [insertOrdered_of_lt hqr, insertOrdered_of_lt h, insertOrdered_of_lt hpr,
        insertOrdered_of_gt hqp, insertOrdered_of_lt hqr]
    | eq =>
      have hpr : compare p r = .lt := Std.TransCmp.lt_of_lt_of_eq h hqr
      rw [insertOrdered_of_eq hqr, insertOrdered_of_lt hpr, insertOrdered_of_gt hqp,
        insertOrdered_of_eq hqr]
    | gt =>
      cases hpr : compare p r with
      | lt =>
        rw [insertOrdered_of_gt hqr, insertOrdered_of_lt hpr, insertOrdered_of_lt hpr,
          insertOrdered_of_gt hqp, insertOrdered_of_gt hqr]
      | eq =>
        rw [insertOrdered_of_gt hqr, insertOrdered_of_eq hpr, insertOrdered_of_eq hpr,
          insertOrdered_of_gt hqr]
      | gt =>
        rw [insertOrdered_of_gt hqr, insertOrdered_of_gt hpr, insertOrdered_of_gt hpr,
          insertOrdered_of_gt hqr, ih]

/-- Two paths may be put into a list in either order, unless they are spellings of one path: the
first of those stays. -/
theorem insertOrdered_comm (h : p.components = q.components → p = q) (ps : List Path) :
    insertOrdered p (insertOrdered q ps) = insertOrdered q (insertOrdered p ps) := by
  cases hcmp : compare p q with
  | lt => exact insertOrdered_comm_of_lt hcmp ps
  | eq => rw [h (compare_eq_eq_iff.mp hcmp)]
  | gt => exact (insertOrdered_comm_of_lt (Std.OrientedCmp.gt_iff_lt.mp hcmp) ps).symm

def SpelledOnce (ps : List Path) : Prop := ∀ p ∈ ps, ∀ q ∈ ps, p.components = q.components → p = q

theorem insertAll_of_perm {ps ps' : List Path} (hperm : ps.Perm ps') (h : SpelledOnce ps)
    (qs : List Path) : insertAll qs ps = insertAll qs ps' := by
  apply hperm.foldl_eq'
  intro p hp q hq rs
  exact insertOrdered_comm (h q hq p hp) rs

theorem pieces_ne_nil (p : Path) : pieces p ≠ [] := by
  cases p with
  | nil => exact List.cons_ne_nil _ _
  | cons c cs =>
    rw [pieces]
    split
    · exact List.cons_ne_nil _ _
    · split <;> exact List.cons_ne_nil _ _

/-- The pieces of two joined paths are those of both. -/
theorem pieces_append_slash (p q : Path) : pieces (p ++ slash :: q) = pieces p ++ pieces q := by
  induction p with
  | nil => rfl
  | cons c p ih =>
    rw [List.cons_append, pieces, pieces, ih]
    split
    · rfl
    · cases hp : pieces p with
      | nil => exact absurd hp (pieces_ne_nil p)
      | cons piece ps => rfl

theorem pieces_of_not_mem {name : FileName} (h : slash ∉ name) : pieces name = [name] := by
  induction name with
  | nil => rfl
  | cons c name ih =>
    have hc : c ≠ slash := fun hc => h (hc ▸ List.mem_cons_self)
    rw [pieces, if_neg hc, ih fun hmem => h (List.mem_cons_of_mem c hmem)]

/-- Only the empty path is one empty piece. -/
theorem eq_nil_of_pieces {p : Path} (h : pieces p = [[]]) : p = [] := by
  cases p with
  | nil => rfl
  | cons c cs =>
    rw [pieces] at h
    split at h
    · exact absurd (List.cons.inj h).2 (pieces_ne_nil cs)
    · split at h <;> cases h

/-- A name that an entry of a folder can have: it is one step of a path, without a zero byte in
it. -/
def IsName (name : FileName) : Prop :=
  name ≠ [] ∧ name ≠ [point] ∧ name ≠ [point, point] ∧ slash ∉ name ∧ 0 ∉ name

instance (name : FileName) : Decidable (IsName name) := by
  unfold IsName
  infer_instance

variable {base : Path} {name : FileName}

theorem IsName.ofPiece? (h : IsName name) : Component.ofPiece? name = some (.normal name) := by
  obtain ⟨hne, hdot, hdots, -⟩ := h
  rw [Component.ofPiece?, if_neg (not_or.mpr ⟨hne, hdot⟩), if_neg hdots]

theorem components_of_pieces {first : FileName} {rest : List FileName}
    (h : pieces p = first :: rest) :
    p.components =
      (if first = [] then (if rest.isEmpty then [] else [.root])
        else if first = [point] then [.current]
        else (Component.ofPiece? first).toList) ++ rest.filterMap Component.ofPiece? := by
  rw [components, h]

theorem exists_pieces_append_slash (base : Path) :
    ∃ first rest, pieces base = first :: rest ∧
      pieces (base ++ [slash]) = first :: (rest ++ [[]]) := by
  obtain ⟨first, rest, hbase⟩ := List.exists_cons_of_ne_nil (pieces_ne_nil base)
  refine ⟨first, rest, hbase, ?_⟩
  rw [pieces_append_slash, hbase]
  rfl

/-- A slash at the end of a path is no step. -/
theorem components_append_slash (h : base ≠ []) :
    components (base ++ [slash]) = base.components := by
  obtain ⟨first, rest, hbase, hslash⟩ := exists_pieces_append_slash base
  have hrest : first = [] → rest.isEmpty = false := by
    rintro rfl
    cases rest with
    | nil => exact absurd (eq_nil_of_pieces hbase) h
    | cons piece rest => rfl
  rw [components_of_pieces hbase, components_of_pieces hslash, List.filterMap_append]
  by_cases hfirst : first = []
  · simp [hfirst, hrest hfirst, Component.ofPiece?]
  · simp [hfirst, Component.ofPiece?]

/-- A name behind a path is one more step. -/
theorem components_append_slash_name (h : IsName name) :
    components (base ++ slash :: name) = components (base ++ [slash]) ++ [.normal name] := by
  obtain ⟨first, rest, hbase, hslash⟩ := exists_pieces_append_slash base
  have hname : pieces (base ++ slash :: name) = first :: (rest ++ [name]) := by
    rw [pieces_append_slash, hbase, pieces_of_not_mem h.2.2.2.1]
    rfl
  have hlast : [name].filterMap Component.ofPiece? = [.normal name] := by
    rw [List.filterMap_cons, h.ofPiece?, List.filterMap_nil]
  rw [components_of_pieces hslash, components_of_pieces hname, List.filterMap_append, hlast]
  simp [Component.ofPiece?]

/-- A name that is joined to a path is its last step. -/
theorem components_join (hbase : base ≠ []) (h : IsName name) :
    (base.join name).components = base.components ++ [.normal name] := by
  have habsolute : isAbsolute name = false := by
    obtain ⟨c, cs, rfl⟩ := List.exists_cons_of_ne_nil h.1
    have hc : c ≠ slash := fun hc => h.2.2.2.1 (hc ▸ List.mem_cons_self)
    simpa [isAbsolute] using hc
  rw [join, habsolute, if_neg (by simpa using hbase)]
  split
  · -- the path ends in the slash that the name needs
    rename_i hlast
    obtain ⟨front, rfl⟩ := List.getLast?_eq_some_iff.mp hlast
    rw [List.append_assoc]
    exact components_append_slash_name h
  · rw [components_append_slash_name h, components_append_slash hbase]

theorem join_ne_nil (hbase : base ≠ []) (h : IsName name) : base.join name ≠ [] := by
  intro heq
  have hsteps := components_join hbase h
  rw [heq] at hsteps
  exact absurd hsteps.symm (List.append_ne_nil_of_right_ne_nil _ (List.cons_ne_nil _ _))

/-- Names joined to a path one after another are its last steps. -/
theorem components_foldl_join {names : List FileName} (hbase : base ≠ [])
    (h : ∀ name ∈ names, IsName name) :
    (names.foldl join base).components = base.components ++ names.map .normal := by
  induction names generalizing base with
  | nil => exact (List.append_nil _).symm
  | cons name names ih =>
    obtain ⟨hname, hnames⟩ := List.forall_mem_cons.mp h
    rw [List.foldl_cons, ih (join_ne_nil hbase hname) hnames, components_join hbase hname,
      List.map_cons, List.append_assoc, List.singleton_append]

variable {stem ext : FileName}

theorem takeWhile_reverse_append (h : point ∉ ext) (back : FileName) :
    (ext.reverse ++ back).takeWhile (· != point) = ext.reverse ++ back.takeWhile (· != point) := by
  apply List.takeWhile_append_of_pos
  intro c hc
  apply bne_iff_ne.mpr
  rintro rfl
  exact h (List.mem_reverse.mp hc)

/-- The extension stands after the last point, if something stands before that point. -/
theorem extension?_append (h : point ∉ ext) :
    extension? (stem ++ point :: ext) = if stem = [] then none else some ext := by
  have hback : (stem ++ point :: ext).reverse = ext.reverse ++ point :: stem.reverse := by
    rw [List.reverse_append, List.reverse_cons, List.append_assoc, List.singleton_append]
  have hpoint : (point :: stem.reverse).takeWhile (· != point) = [] :=
    List.takeWhile_cons_of_neg (by decide)
  simp only [extension?, hback, takeWhile_reverse_append h, hpoint, List.append_nil, List.drop_left,
    List.reverse_reverse]
  cases hstem : stem.reverse with
  | nil => rw [if_pos (List.reverse_eq_nil_iff.mp hstem)]
  | cons c cs =>
    rw [if_neg]
    rintro rfl
    cases hstem

theorem extension?_of_not_mem (h : point ∉ name) : extension? name = none := by
  have hwhole := takeWhile_reverse_append h []
  rw [List.takeWhile_nil, List.append_nil] at hwhole
  simp only [extension?, hwhole, List.drop_length]

end Path

end ScratchFormat
