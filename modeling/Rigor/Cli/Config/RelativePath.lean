import Rigor.Library.Routes
import Rigor.Rust.Paths

/-!
# Relative paths of the configuration

`lexical_absolute` and `relative_path` of `config.rs`: the one walks the segments of a path, and the
other finds the walk between two places.  A string is its bytes here, as a path is.
-/

namespace Rigor.Cli.Config

open Rigor.Library.Routes Rigor.Library.Separated Rigor.Rust

/-! ## The functions -/

/-- One component of the loop. -/
def foldComponent (out : PathBytes) : Component → PathBytes
  | .curDir | .rootDir => out
  | .parentDir => pop out
  | .normal name => push out name

def lexicalAbsolute (path dir : PathBytes) : PathBytes :=
  let joined := if isAbsolute path then path else join dir path
  (components joined).foldl foldComponent [slash]

def relativePath (absolute base : PathBytes) : PathBytes :=
  match absolute.dropPrefix? (base ++ [slash]) with
  | some rest => rest
  | none =>
      let a := (absolute.splitOn slash).filter (· ≠ [])
      let b := (base.splitOn slash).filter (· ≠ [])
      let common := ((a.zip b).takeWhile fun pair => pair.1 = pair.2).length
      let parts := List.replicate (b.length - common) [dot, dot] ++ a.drop common
      if parts = [] then [dot] else [slash].intercalate parts

/-! ## Walking along a path -/

/-- The move of a component, if it is one. -/
def move : Component → Option (Move PathBytes)
  | .rootDir | .curDir => none
  | .parentDir => some .up
  | .normal name => some (.down name)

def segmentMove (segment : PathBytes) : Option (Move PathBytes) :=
  (parseSegment segment).bind move

/-- The moves of all segments. -/
def moves (path : PathBytes) : List (Move PathBytes) :=
  (path.splitOn slash).filterMap segmentMove

theorem filterMap_components (path : PathBytes) : (components path).filterMap move = moves path := by
  have joined : ∀ segments : List PathBytes,
      (segments.filterMap parseSegment).filterMap move = segments.filterMap segmentMove :=
    fun _ => List.filterMap_filterMap
  rw [components, moves]
  split
  · rename_i pieces
    rw [pieces, List.filterMap_cons_none rfl, joined]
  · rename_i pieces
    rw [pieces, List.filterMap_cons_none rfl, joined, List.filterMap_cons_none rfl]
  · exact joined _

theorem plain_of_mem_moves {path name : PathBytes} (mem : .down name ∈ moves path) : Plain name := by
  rcases List.mem_filterMap.mp mem with ⟨segment, inPath, moved⟩
  rcases Option.bind_eq_some_iff.mp moved with ⟨component, parsed, isDown⟩
  cases component with
  | normal other =>
      cases isDown
      exact plain_of_parseSegment (not_mem_of_mem_splitOn inPath) parsed
  | rootDir => nomatch isDown
  | curDir => nomatch isDown
  | parentDir => nomatch isDown

theorem segmentMove_of_plain {name : PathBytes} (plain : Plain name) :
    segmentMove name = some (.down name) := by
  rw [segmentMove, plain.parseSegment]
  rfl

theorem filterMap_segmentMove {names : List PathBytes} (plain : ∀ name ∈ names, Plain name) :
    names.filterMap segmentMove = names.map .down := by
  rw [← List.filterMap_eq_map]
  exact List.filterMap_congr fun name mem => segmentMove_of_plain (plain name mem)

/-- The loop walks, from one place to the next. -/
theorem foldl_foldComponent {parts : List Component} {names : List PathBytes}
    (plain : ∀ name ∈ names, Plain name)
    (plainParts : ∀ name, .down name ∈ parts.filterMap move → Plain name) :
    parts.foldl foldComponent (render names) = render (walk names (parts.filterMap move)) := by
  induction parts generalizing names with
  | nil => rfl
  | cons part parts ih =>
      cases part with
      | rootDir => exact ih plain plainParts
      | curDir => exact ih plain plainParts
      | parentDir =>
          rw [List.foldl_cons, foldComponent, pop_render plain]
          exact ih (fun name mem => plain name (List.dropLast_subset _ mem))
            (fun name mem => plainParts name (List.mem_cons_of_mem _ mem))
      | normal name =>
          have plainName : Plain name := plainParts name List.mem_cons_self
          rw [List.foldl_cons, foldComponent, push_render plain plainName.not_isAbsolute,
            ← render_concat]
          apply ih
          · intro other mem
            rcases List.mem_append.mp mem with before | last
            · exact plain other before
            · rwa [List.mem_singleton.mp last]
          · exact fun other mem => plainParts other (List.mem_cons_of_mem _ mem)

theorem lexicalAbsolute_eq (path dir : PathBytes) : lexicalAbsolute path dir =
    render (walk [] (moves (if isAbsolute path then path else join dir path))) := by
  generalize joined : (if isAbsolute path then path else join dir path) = whole
  have folded := @foldl_foldComponent (components whole) [] (fun _ mem => nomatch mem)
  rw [filterMap_components] at folded
  simp only [lexicalAbsolute, joined]
  exact folded fun name mem => plain_of_mem_moves mem

/-! ## Folded paths -/

/-- A result of `lexical_absolute`. -/
def Folded (path : PathBytes) : Prop :=
  ∃ raw dir, path = lexicalAbsolute raw dir

theorem moves_render {names : List PathBytes} (plain : ∀ name ∈ names, Plain name) :
    moves (render names) = names.map .down := by
  by_cases empty : names = []
  · rw [empty]
    rfl
  · rw [moves, splitOn_render plain empty, List.filterMap_cons_none rfl, filterMap_segmentMove plain]

theorem lexicalAbsolute_render {names : List PathBytes} (plain : ∀ name ∈ names, Plain name)
    (dir : PathBytes) : lexicalAbsolute (render names) dir = render names := by
  have rooted : isAbsolute (render names) = true := rfl
  rw [lexicalAbsolute_eq, if_pos rooted, moves_render plain, walk_down, List.nil_append]

theorem folded_iff {path : PathBytes} :
    Folded path ↔ ∃ names, (∀ name ∈ names, Plain name) ∧ path = render names := by
  constructor
  · rintro ⟨raw, dir, rfl⟩
    refine ⟨_, ?_, lexicalAbsolute_eq raw dir⟩
    intro name mem
    rcases mem_walk mem with start | moved
    · nomatch start
    · exact plain_of_mem_moves moved
  · rintro ⟨names, plain, rfl⟩
    exact ⟨render names, [slash], (lexicalAbsolute_render plain [slash]).symm⟩

/-! ## Relative paths -/

/-- A move as a segment. -/
def segment : Move PathBytes → PathBytes
  | .up => [dot, dot]
  | .down name => name

theorem filter_splitOn_render {names : List PathBytes} (plain : ∀ name ∈ names, Plain name) :
    ((render names).splitOn slash).filter (· ≠ []) = names := by
  by_cases empty : names = []
  · rw [empty]
    rfl
  · rw [splitOn_render plain empty]
    exact List.filter_eq_self.mpr fun name mem => decide_eq_true (plain name mem).nonempty

/-- The part behind the base is the way down from it. -/
theorem exists_of_dropPrefix? {as bs : List PathBytes} {rest : PathBytes}
    (plain : ∀ name ∈ as, Plain name) (plainBase : ∀ name ∈ bs, Plain name)
    (dropped : (render as).dropPrefix? (render bs ++ [slash]) = some rest) :
    ∃ more, as = bs ++ more ∧ more ≠ [] ∧ rest = [slash].intercalate more := by
  have whole : render as = render bs ++ slash :: rest := by
    rcases List.dropPrefix?_eq_some_iff.mp dropped with ⟨front, same, equal⟩
    rw [same, beq_iff_eq.mp equal, List.append_assoc]
    rfl
  have pieces := congrArg (List.splitOn slash) whole
  rw [List.splitOn_append_cons_self] at pieces
  have nonempty : as ≠ [] := by
    rintro rfl
    have long := congrArg List.length whole
    simp only [render, List.length_append, List.length_cons, List.intercalate_nil,
      List.length_nil] at long
    omega
  rw [splitOn_render plain nonempty] at pieces
  refine ⟨rest.splitOn slash, ?_, List.splitOn_ne_nil _ _, (List.intercalate_splitOn _).symm⟩
  by_cases top : bs = []
  · rw [top] at pieces
    have first : as = [] :: rest.splitOn slash := (List.cons.inj pieces).2
    have mem : [] ∈ as := first ▸ List.mem_cons_self
    exact absurd rfl (plain [] mem).nonempty
  · rw [splitOn_render plainBase top] at pieces
    exact (List.cons.inj pieces).2

/-- Both ways spell the route. -/
theorem relativePath_render {as bs : List PathBytes} (plain : ∀ name ∈ as, Plain name)
    (plainBase : ∀ name ∈ bs, Plain name) : relativePath (render as) (render bs) =
      if as = bs then [dot] else [slash].intercalate ((route as bs).map segment) := by
  rw [relativePath]
  split
  · rename_i rest dropped
    rcases exists_of_dropPrefix? plain plainBase dropped with ⟨more, rfl, nonempty, rfl⟩
    rw [if_neg (by simpa using nonempty), route_append, List.map_map]
    exact congrArg _ (List.map_id more).symm
  · have shared : ((as.zip bs).takeWhile fun pair => pair.1 = pair.2).length = common as bs := rfl
    have spelled : List.replicate (bs.length - common as bs) [dot, dot] ++ as.drop (common as bs) =
        (route as bs).map segment := by
      rw [route, List.map_append, List.map_replicate, List.map_map]
      exact congrArg _ (List.map_id _).symm
    simp only [filter_splitOn_render plain, filter_splitOn_render plainBase, shared, spelled,
      List.map_eq_nil_iff, route_eq_nil_iff]

/-! ## The way back -/

/-- The segments of a route between plain places. -/
theorem mem_route {as bs : List PathBytes} (plain : ∀ name ∈ as, Plain name) {part : PathBytes}
    (mem : part ∈ (route as bs).map segment) : part = [dot, dot] ∨ Plain part := by
  rcases List.mem_map.mp mem with ⟨step, inRoute, rfl⟩
  rcases List.mem_append.mp inRoute with up | down
  · rw [List.eq_of_mem_replicate up]
    exact .inl rfl
  · rcases List.mem_map.mp down with ⟨name, inRest, rfl⟩
    exact .inr (plain name (List.mem_of_mem_drop inRest))

theorem filterMap_segment {as bs : List PathBytes} (plain : ∀ name ∈ as, Plain name) :
    ((route as bs).map segment).filterMap segmentMove = route as bs := by
  have rest : ∀ name ∈ as.drop (common as bs), Plain name :=
    fun name mem => plain name (List.mem_of_mem_drop mem)
  have ups : ∀ n, (List.replicate n [dot, dot]).filterMap segmentMove = List.replicate n .up :=
    fun _ => List.filterMap_replicate_of_some rfl
  have names : (as.drop (common as bs)).map (segment ∘ .down) = as.drop (common as bs) :=
    List.map_id _
  rw [route, List.map_append, List.filterMap_append, List.map_replicate, List.map_map, names,
    filterMap_segmentMove rest]
  exact congrArg (· ++ _) (ups _)

theorem splitOn_route {as bs : List PathBytes} (plain : ∀ name ∈ as, Plain name)
    (differ : as ≠ bs) : ([slash].intercalate ((route as bs).map segment)).splitOn slash =
      (route as bs).map segment := by
  apply List.splitOn_intercalate
  · intro part mem
    rcases mem_route plain mem with rfl | plainPart
    · decide
    · exact plainPart.noSlash
  · rw [ne_eq, List.map_eq_nil_iff, route_eq_nil_iff]
    exact differ

/-- Segments joined to a place are walked from it. -/
theorem moves_join {names : List PathBytes} {path : PathBytes}
    (plain : ∀ name ∈ names, Plain name) (relative : ¬isAbsolute path = true) :
    moves (join (render names) path) = names.map .down ++ moves path := by
  rw [join, push_render plain relative]
  by_cases top : names = []
  · rw [if_pos top, top]
    have cut := List.splitOn_append_cons_self (a := slash) [] path
    rw [List.nil_append] at cut
    rw [moves, cut]
    rfl
  · rw [if_neg top, moves, List.splitOn_append_cons_self, List.filterMap_append]
    exact congrArg (· ++ _) (moves_render plain)

theorem lexicalAbsolute_relativePath {as bs : List PathBytes} (plain : ∀ name ∈ as, Plain name)
    (plainBase : ∀ name ∈ bs, Plain name) :
    lexicalAbsolute (relativePath (render as) (render bs)) (render bs) = render as := by
  rw [relativePath_render plain plainBase]
  by_cases same : as = bs
  · have relative : ¬isAbsolute [dot] = true := by decide
    rw [if_pos same, same, lexicalAbsolute_eq, if_neg relative, moves_join plainBase relative,
      walk_append, walk_down]
    rfl
  · have pieces := splitOn_route plain same
    have relative : ¬isAbsolute ([slash].intercalate ((route as bs).map segment)) = true := by
      rw [isAbsolute, decide_eq_true_eq, List.head?_eq_some_iff]
      rintro ⟨rest, rooted⟩
      rw [rooted] at pieces
      have empty : [] ∈ (route as bs).map segment := by
        rw [← pieces]
        exact List.mem_cons_self
      rcases mem_route plain empty with dots | plainEmpty
      · cases dots
      · exact plainEmpty.nonempty rfl
    rw [if_neg same, lexicalAbsolute_eq, if_neg relative, moves_join plainBase relative, moves,
      pieces, filterMap_segment plain, walk_append, walk_down, List.nil_append, walk_route]

/-! ## What stays in a path -/

theorem components_render {names : List PathBytes} (plain : ∀ name ∈ names, Plain name) :
    components (render names) = .rootDir :: names.map .normal := by
  by_cases top : names = []
  · rw [top]
    rfl
  · rcases List.exists_cons_of_ne_nil top with ⟨first, rest, rfl⟩
    have parsed : (first :: rest).filterMap parseSegment = (first :: rest).map .normal := by
      rw [← List.filterMap_eq_map]
      exact List.filterMap_congr fun name mem => (plain name mem).parseSegment
    rw [components, splitOn_render plain top]
    exact congrArg _ parsed

theorem segments_render {names : List PathBytes} (plain : ∀ name ∈ names, Plain name) :
    ∀ part ∈ (render names).splitOn slash, part ≠ [dot] ∧ part ≠ [dot, dot] := by
  intro part mem
  by_cases top : names = []
  · have root : (render []).splitOn slash = [[], []] := rfl
    rw [top, root] at mem
    rw [List.eq_of_mem_replicate (n := 2) mem]
    decide
  · rw [splitOn_render plain top] at mem
    rcases List.mem_cons.mp mem with rfl | inNames
    · decide
    · exact ⟨(plain part inNames).notDot, (plain part inNames).notDots⟩

/--
A relative path leads back from the base, goes up only at its start and names no place twice; folding
leaves no `.` and no `..`, and a folded path as it is.
-/
theorem relativePath_laws :
    (∀ a b, Folded a → Folded b →
      lexicalAbsolute (relativePath a b) b = a ∧
      (a ≠ b → [dot] ∉ (relativePath a b).splitOn slash) ∧
      ∃ ups rest, (relativePath a b).splitOn slash = List.replicate ups [dot, dot] ++ rest ∧
        [dot, dot] ∉ rest) ∧
    ∀ path dir,
      (∀ dir', lexicalAbsolute (lexicalAbsolute path dir) dir' = lexicalAbsolute path dir) ∧
      (∀ part ∈ components (lexicalAbsolute path dir), part ≠ .curDir ∧ part ≠ .parentDir) ∧
      ∀ part ∈ (lexicalAbsolute path dir).splitOn slash, part ≠ [dot] ∧ part ≠ [dot, dot] := by
  constructor
  · intro a b foldedA foldedB
    rcases folded_iff.mp foldedA with ⟨as, plain, rfl⟩
    rcases folded_iff.mp foldedB with ⟨bs, plainBase, rfl⟩
    refine ⟨lexicalAbsolute_relativePath plain plainBase, ?_, ?_⟩
    · intro differ
      have names : as ≠ bs := fun same => differ (congrArg render same)
      rw [relativePath_render plain plainBase, if_neg names, splitOn_route plain names]
      intro mem
      rcases mem_route plain mem with dots | plainDot
      · cases dots
      · exact plainDot.notDot rfl
    · rw [relativePath_render plain plainBase]
      by_cases names : as = bs
      · rw [if_pos names]
        exact ⟨0, [[dot]], rfl, by decide⟩
      · rw [if_neg names, splitOn_route plain names]
        refine ⟨bs.length - common as bs, as.drop (common as bs), ?_, ?_⟩
        · rw [route, List.map_append, List.map_replicate, List.map_map]
          exact congrArg _ (List.map_id _)
        · exact fun mem => (plain _ (List.mem_of_mem_drop mem)).notDots rfl
  · intro path dir
    rcases folded_iff.mp ⟨path, dir, rfl⟩ with ⟨names, plain, same⟩
    rw [same]
    refine ⟨lexicalAbsolute_render plain, ?_, segments_render plain⟩
    rw [components_render plain]
    intro part mem
    rcases List.mem_cons.mp mem with rfl | inNames
    · decide
    · rcases List.mem_map.mp inNames with ⟨name, -, rfl⟩
      constructor <;> rintro ⟨⟩

/-- From `/p/ab` to `/p/a/c`, past a sibling that shares a prefix of the name. -/
theorem relativePath_laws_sibling : lexicalAbsolute (relativePath [47, 112, 47, 97, 47, 99]
    [47, 112, 47, 97, 98]) [47, 112, 47, 97, 98] = [47, 112, 47, 97, 47, 99] :=
  (relativePath_laws.1 _ _ ⟨[97, 47, 99], [47, 112], by decide +kernel⟩
    ⟨[97, 98], [47, 112], by decide +kernel⟩).1

end Rigor.Cli.Config
