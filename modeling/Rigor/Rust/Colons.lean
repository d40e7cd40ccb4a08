import Rigor.Text

/-!
# Names with colons

A Ruby name is the text of its segments, with `::` between them.
-/

namespace Rigor.Text

/-- `str::split("::")`. -/
def splitColons : Text → List Text
  | ':' :: ':' :: rest => [] :: splitColons rest
  | c :: rest =>
      match splitColons rest with
      | [] => [[c]]
      | segment :: segments => (c :: segment) :: segments
  | [] => [[]]

def joinColons : List Text → Text :=
  List.intercalate "::".toList

/-- `strip_prefix("::")`, or the name itself. -/
def stripRoot : Text → Text
  | ':' :: ':' :: rest => rest
  | raw => raw

/-- `format!("{scope}::{name}")`. -/
def under (scope name : Text) : Text :=
  scope ++ "::".toList ++ name

/-- The text before `rfind("::")`. -/
def rfindColons : Text → Option Text
  | [] => none
  | c :: rest =>
      match rfindColons rest with
      | some front => some (c :: front)
      | none => if c = ':' ∧ rest.head? = some ':' then some [] else none

def namespacePrefixesFuel : Nat → Text → List Text
  | 0, _ => []
  | fuel + 1, name =>
      match rfindColons name with
      | none => []
      | some front => front :: namespacePrefixesFuel fuel front

/-- The namespaces around a name, the innermost first. -/
def namespacePrefixes (name : Text) : List Text :=
  namespacePrefixesFuel name.length name

theorem splitColons_ne_nil (raw : Text) : splitColons raw ≠ [] := by
  fun_cases splitColons raw <;> simp

theorem under_assoc (a b c : Text) : under (under a b) c = under a (under b c) := by
  simp only [under, List.append_assoc]

theorem length_lt_under (scope name : Text) : name.length < (under scope name).length := by
  rw [under, List.length_append, List.length_append]
  exact Nat.lt_add_of_pos_left (Nat.add_pos_right _ (by decide))

theorem foldl_under_append (front base : Text) (segs : List Text) :
    segs.foldl under (front ++ base) = front ++ segs.foldl under base := by
  induction segs generalizing base with
  | nil => rfl
  | cons seg segs ih =>
      have moved : under (front ++ base) seg = front ++ under base seg := by
        simp only [under, List.append_assoc]
      rw [List.foldl_cons, List.foldl_cons, moved, ih]

theorem foldl_under_under (scope base : Text) (segs : List Text) :
    segs.foldl under (under scope base) = under scope (segs.foldl under base) :=
  foldl_under_append _ _ _

/-- The segments of a name make up the name. -/
theorem foldl_under_of_split (raw : Text) {head : Text} {segs : List Text}
    (split : splitColons raw = head :: segs) : segs.foldl under head = raw := by
  induction raw using splitColons.induct generalizing head segs with
  | case1 rest ih =>
      rw [splitColons.eq_1] at split
      cases split
      cases parts : splitColons rest with
      | nil => exact absurd parts (splitColons_ne_nil rest)
      | cons segment segments =>
          have whole := ih parts
          calc
            segments.foldl under (under [] segment) = under [] (segments.foldl under segment) :=
              foldl_under_under _ _ _
            _ = under [] rest := by rw [whole]
  | case2 c rest distinct empty => exact absurd empty (splitColons_ne_nil rest)
  | case3 c rest distinct segment segments parts ih =>
      rw [splitColons.eq_2 c rest distinct, parts] at split
      cases split
      have whole := ih parts
      calc
        segments.foldl under ([c] ++ segment) = [c] ++ segments.foldl under segment :=
          foldl_under_append _ _ _
        _ = c :: rest := by rw [whole, List.singleton_append]
  | case4 =>
      cases split
      rfl

/-! ## The namespaces around a name -/

theorem under_of_rfindColons {name front : Text} (found : rfindColons name = some front) :
    ∃ back, name = under front back := by
  induction name generalizing front with
  | nil => exact nomatch found
  | cons c rest ih =>
      rw [rfindColons] at found
      cases inner : rfindColons rest with
      | some front' =>
          rw [inner] at found
          cases found
          rcases ih inner with ⟨back, rfl⟩
          exact ⟨back, rfl⟩
      | none =>
          rw [inner] at found
          simp only at found
          split at found
          next colons =>
            cases found
            rcases colons with ⟨rfl, second⟩
            cases rest with
            | nil => exact nomatch second
            | cons d back =>
                cases second
                exact ⟨back, rfl⟩
          next => exact nomatch found

theorem length_lt_of_rfindColons {name front : Text} (found : rfindColons name = some front) :
    front.length < name.length := by
  rcases under_of_rfindColons found with ⟨back, rfl⟩
  rw [under, List.append_assoc, List.length_append]
  exact Nat.lt_add_of_pos_right (by simp)

theorem namespacePrefixesFuel_eq (fuel : Nat) (name : Text) (enough : name.length ≤ fuel) :
    namespacePrefixesFuel fuel name = namespacePrefixes name := by
  suffices ∀ fuel fuel' name, name.length ≤ fuel → name.length ≤ fuel' →
      namespacePrefixesFuel fuel name = namespacePrefixesFuel fuel' name from
    this fuel _ name enough (Nat.le_refl _)
  clear enough name fuel
  intro fuel
  induction fuel with
  | zero =>
      intro fuel' name short _
      rw [List.length_eq_zero_iff.mp (Nat.le_zero.mp short)]
      cases fuel' <;> rfl
  | succ fuel ih =>
      intro fuel' name enough enough'
      rw [namespacePrefixesFuel]
      cases found : rfindColons name with
      | none =>
          cases fuel' with
          | zero => rfl
          | succ fuel' => rw [namespacePrefixesFuel, found]
      | some front =>
          have shorter := length_lt_of_rfindColons found
          cases fuel' with
          | zero => exact absurd enough' (Nat.not_le_of_lt (Nat.zero_lt_of_lt shorter))
          | succ fuel' =>
              rw [namespacePrefixesFuel, found]
              have same := ih fuel' front (Nat.le_of_lt_succ (Nat.lt_of_lt_of_le shorter enough))
                (Nat.le_of_lt_succ (Nat.lt_of_lt_of_le shorter enough'))
              simp only [same]

theorem namespacePrefixes_eq (name : Text) : namespacePrefixes name =
    match rfindColons name with
    | none => []
    | some front => front :: namespacePrefixes front := by
  rw [← namespacePrefixesFuel_eq (name.length + 1) name (Nat.le_succ _), namespacePrefixesFuel]
  cases found : rfindColons name with
  | none => rfl
  | some front =>
      have shorter := length_lt_of_rfindColons found
      simp only [namespacePrefixesFuel_eq name.length front (Nat.le_of_lt shorter)]

/-- A namespace around a name stands before a `::` of the name. -/
theorem under_of_mem_prefixes {name front : Text} (mem : front ∈ namespacePrefixes name) :
    ∃ back, name = under front back := by
  induction size : name.length using Nat.strongRecOn generalizing name with
  | ind n ih =>
      rw [namespacePrefixes_eq] at mem
      cases found : rfindColons name with
      | none =>
          rw [found] at mem
          exact nomatch mem
      | some nearest =>
          rw [found] at mem
          rcases under_of_rfindColons found with ⟨back, whole⟩
          rcases List.mem_cons.mp mem with rfl | farther
          · exact ⟨back, whole⟩
          · rcases ih nearest.length (size ▸ length_lt_of_rfindColons found) farther rfl with ⟨inner, split⟩
            refine ⟨under inner back, ?_⟩
            rw [whole, split, under_assoc]

theorem prefixes_trans {name middle front : Text} (inner : front ∈ namespacePrefixes middle)
    (outer : middle ∈ namespacePrefixes name) : front ∈ namespacePrefixes name := by
  induction size : name.length using Nat.strongRecOn generalizing name with
  | ind n ih =>
      rw [namespacePrefixes_eq] at outer ⊢
      cases found : rfindColons name with
      | none =>
          rw [found] at outer
          exact nomatch outer
      | some nearest =>
          rw [found] at outer
          rcases List.mem_cons.mp outer with rfl | farther
          · exact List.mem_cons_of_mem _ inner
          · exact List.mem_cons_of_mem _
              (ih nearest.length (size ▸ length_lt_of_rfindColons found) farther rfl)

end Rigor.Text
