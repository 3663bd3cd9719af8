import Cadent.Indexer.Searches
import Cadent.Lib.Globs

/-!
# Searches by a glob

A pattern of plain characters and stars becomes a query of stars, which fits every path with as
many segments, and an expression, which tells the paths among them. The trie shows a node that
has children as its children, so a metric whose path leads on to another metric is not found. A
pattern that is itself indexed is looked up and not searched for, and a single star lists the
first segments of all paths.
-/

namespace Indexer

open Maps Text Utils Globs

/-- The states that adds lead to. -/
inductive Built : MetricIndex → Prop
  | new : Built .new
  | add {mi : MetricIndex} (built : Built mi) (uid path : String) (now : Int) :
      Built (mi.add uid path now)

/-- A path that other metrics of the index are below. -/
def LeadsOn (mi : MetricIndex) (path : String) : Prop :=
  ∃ longer, (mi.nameIndex.lookup longer).isSome ∧ longer ≠ path ∧
    split path "." <+: split longer "."

/-! ### The trie after adds -/

/-- The trie has the metrics of the index for its values and the beginnings of their paths for
its nodes. -/
structure Mirrors (mi : MetricIndex) : Prop where
  sound : mi.trieIndex.Sound
  values : ∀ path, (mi.trieIndex.get path).map (·.uid) = mi.nameIndex.lookup path
  nodes : ∀ parts, parts ≠ [] → ((mi.trieIndex.root.sub parts).isSome ↔
    ∃ path, (mi.nameIndex.lookup path).isSome ∧ parts <+: split path ".")

variable {mi : MetricIndex}

theorem mirrors_new : Mirrors .new where
  sound := .new
  values path := by
    have hget : (MetricIndex.new.trieIndex.get path) = none := Trie.Refines.new.get path
    rw [hget]
    rfl
  nodes parts some := by
    obtain ⟨part, parts, rfl⟩ := List.exists_cons_of_ne_nil some
    exact ⟨nofun, fun ⟨_, known, _⟩ => nomatch known⟩

theorem Mirrors.add (mirrors : Mirrors mi) (uid path : String) (now : Int) :
    Mirrors (mi.add uid path now) := by
  rw [MetricIndex.add]
  rcases known : mi.nameIndex.lookup path with _ | uid'
  · obtain ⟨m, refines⟩ := mirrors.sound
    refine ⟨mirrors.sound.put path _, fun path' => ?_, fun parts some => ?_⟩
    · rw [mirrors.sound.get_put, lookup_insert]
      split_ifs
      · rfl
      · exact mirrors.values path'
    · rw [Trie.put, refines.dot]
      refine (Tree.sub_put_isSome _ (split_ne_nil Utils.dot path) parts _).trans ?_
      rw [mirrors.nodes parts some]
      constructor
      · rintro (before | ⟨path', known', before⟩)
        · exact ⟨path, by rw [lookup_insert, if_pos rfl]; rfl, before⟩
        · refine ⟨path', ?_, before⟩
          rw [lookup_insert]
          split_ifs
          · rfl
          · exact known'
      · rintro ⟨path', known', before⟩
        rw [lookup_insert] at known'
        split_ifs at known' with same
        · exact .inl (same ▸ before)
        · exact .inr ⟨path', known', before⟩
  · exact ⟨mirrors.sound, mirrors.values, mirrors.nodes⟩

theorem Built.mirrors (built : Built mi) : Mirrors mi := by
  induction built with
  | new => exact mirrors_new
  | add _ uid path now ih => exact ih.add uid path now

/-- A node has children just when other metrics are below it. -/
theorem Mirrors.children_iff (mirrors : Mirrors mi) {key : String} {c : Utils.Tree TrieItem}
    (found : mi.trieIndex.node? key = some c) : c.children ≠ [] ↔ LeadsOn mi key := by
  rw [Tree.children_ne_nil_iff found]
  constructor
  · rintro ⟨part, deeper⟩
    obtain ⟨longer, known, before⟩ := (mirrors.nodes _ (by simp)).mp deeper
    refine ⟨longer, known, ?_, (List.prefix_append _ _).trans before⟩
    rintro rfl
    have hle := before.length_le
    simp at hle
  · rintro ⟨longer, known, other, rest, same⟩
    rcases rest with _ | ⟨part, rest⟩
    · rw [List.append_nil] at same
      exact absurd ((split_inj Utils.dot).mp same.symm) other
    · refine ⟨part, (mirrors.nodes _ (by simp)).mpr ⟨longer, known, rest, ?_⟩⟩
      rw [← same, List.append_assoc, List.singleton_append]

/-- A search for metrics shows those that no others are below, with their uids. -/
theorem Mirrors.itemAt_iff (mirrors : Mirrors mi) {key : String} {item : MetricFindItem} :
    itemAt mi true key = some item ↔ ¬ LeadsOn mi key ∧ ∃ uid, mi.nameIndex.lookup key = some uid ∧
      item = ⟨(split key ".").getLastD "", key, key, uid, 0, 1, 0⟩ := by
  have hvalue := mirrors.values key
  rw [mirrors.sound.get_eq] at hvalue
  rw [itemAt]
  rcases found : mi.trieIndex.node? key with _ | c
  · rw [found] at hvalue
    constructor
    · rintro ⟨⟩
    · rintro ⟨_, uid, known, _⟩
      cases hvalue.trans known
  · rw [found, Option.bind_some] at hvalue
    rw [← mirrors.children_iff found, not_not, Option.bind_some, Tree.found, ← hvalue]
    by_cases leaf : c.children = []
    · rw [if_pos (List.isEmpty_iff.mpr leaf)]
      rcases c.value with _ | value
      · constructor
        · rintro ⟨⟩
        · rintro ⟨_, _, known, _⟩
          cases known
      · constructor
        · intro shown
          exact ⟨leaf, value.uid, rfl, (Option.some.inj shown).symm⟩
        · rintro ⟨_, uid, known, rfl⟩
          rw [← Option.some.inj known]
          rfl
    · rw [if_neg (by simpa using leaf)]
      constructor
      · rintro ⟨⟩
      · rintro ⟨empty, _⟩
        exact absurd empty leaf

/-! ### Patterns -/

/-- A pattern of segments of plain characters and stars, with a star in it. Letters, digits,
`_` and `-` are all plain. -/
structure GlobPattern (p : String) : Prop where
  chars : ∀ c ∈ p.toList, plain c = true ∧ c ≠ ',' ∨ c = '.' ∨ c = '*'
  segments : ∀ segment ∈ split p ".", segment ≠ ""
  star : '*' ∈ p.toList

example : ("abcdefghijklmnopqrstuvwxyzABCDEFGHIJKLMNOPQRSTUVWXYZ0123456789_-".toList.all
    fun c => plain c && c != ',') = true := by decide

namespace GlobPattern

variable {p : String}

theorem ne_of_mem (glob : GlobPattern p) {c d : Char} (mem : c ∈ p.toList)
    (special : plain d = false ∨ d = ',') (other : d ≠ '.' ∧ d ≠ '*') : c ≠ d := by
  rintro rfl
  rcases glob.chars c mem with ⟨plain, comma⟩ | dot | star
  · rcases special with special | rfl
    · rw [special] at plain
      cases plain
    · exact comma rfl
  · exact other.1 dot
  · exact other.2 star

theorem notMem (glob : GlobPattern p) {d : Char} (special : plain d = false ∨ d = ',')
    (other : d ≠ '.' ∧ d ≠ '*') : d ∉ p.toList :=
  fun mem => glob.ne_of_mem mem special other rfl

theorem commaFree (glob : GlobPattern p) : ',' ∉ p.toList := glob.notMem (.inr rfl) (by decide)

theorem oneLine (glob : GlobPattern p) : '\n' ∉ p.toList :=
  glob.notMem (.inl (by decide)) (by decide)

theorem containsAny (glob : GlobPattern p) (chars : String) (star : '*' ∈ chars.toList) :
    containsAny p chars = true :=
  List.any_eq_true.mpr ⟨'*', glob.star, List.contains_iff_mem.mpr star⟩

theorem needRegex (glob : GlobPattern p) : needRegex p = true := glob.containsAny _ (by decide)

theorem needRegex_segment (glob : GlobPattern p) {segment : String} (mem : segment ∈ split p ".") :
    Indexer.needRegex segment = true ↔ '*' ∈ segment.toList := by
  rw [Indexer.needRegex, Text.containsAny, List.any_eq_true]
  constructor
  · rintro ⟨c, own, special⟩
    have inside := mem_of_mem_split Utils.dot mem own
    have listed := List.contains_iff_mem.mp special
    rcases glob.chars c inside with ⟨plain, _⟩ | rfl | rfl
    · have hnone : ("(|*?[\x7b^$".toList.all fun d => !Globs.plain d) = true := by decide
      have special := List.all_eq_true.mp hnone c listed
      rw [plain] at special
      cases special
    · exact absurd listed (by decide)
    · exact own
  · exact fun star => ⟨'*', star, by decide⟩

theorem closed (glob : GlobPattern p) : openAfter false p.toList = false := by
  have hfree := glob.notMem (d := '\x7b') (.inl (by decide)) (by decide)
  rw [openAfter]
  generalize p.toList = cs at hfree
  induction cs with
  | nil => rfl
  | cons c cs ih =>
    rw [List.mem_cons, not_or] at hfree
    rw [List.foldl_cons, if_neg (Ne.symm hfree.1), ite_self]
    exact ih hfree.2

theorem patternTarget (glob : GlobPattern p) (notRoot : p ≠ "*")
    (unknown : mi.nameIndex.lookup p = none) : PatternTarget mi p :=
  ⟨glob.needRegex, notRoot, glob.closed, unknown⟩

/-- Every segment becomes a star in the query of the trie. -/
theorem fits_toTrieQuery (glob : GlobPattern p) (key : String) :
    List.Forall₂ Tree.Fits (split (toTrieQuery p) ".") (split key ".") ↔
      (split p ".").length = (split key ".").length := by
  have hstars : split (toTrieQuery p) "." = (split p ".").map fun _ => "*" := by
    have hquery : toTrieQuery p = String.intercalate "." ((split p ".").map fun _ => "*") := by
      simp only [toTrieQuery, glob.containsAny "*?[\x7b^$\x7d])(" (by decide), if_true]
    rw [hquery, split_intercalate Utils.dot]
    · simpa using split_ne_nil Utils.dot p
    · intro part mem
      obtain ⟨_, _, rfl⟩ := List.mem_map.mp mem
      decide
  rw [hstars, List.forall₂_map_left_iff]
  constructor
  · exact List.Forall₂.length_eq
  · intro same
    exact List.forall₂_iff_zip.mpr ⟨same, fun _ => .inl rfl⟩

theorem toList_regifyKeyString (glob : GlobPattern p) :
    (regifyKeyString p).toList = (p.toList.map token).flatMap Token.text := by
  have hkeep : ∀ old new : String, ¬ old.toList <:+: p.toList →
      replace p old new = p := by
    intro old new free
    rw [replace, split_of_not_infix free, String.intercalate_singleton]
  have hfree : ∀ {d : Char}, plain d = false ∨ d = ',' → d ≠ '.' ∧ d ≠ '*' →
      ¬ [d] <:+: p.toList := by
    intro d special other inside
    exact glob.notMem special other (inside.subset (List.mem_singleton_self d))
  have hdots : ¬ ['.', '.'] <:+: p.toList := by
    have htwice := not_infix_intercalate Utils.dot glob.segments
      fun segment mem => notMem_of_mem_split Utils.dot mem
    rw [intercalate_split Utils.dot] at htwice
    exact fun inside => htwice (inside.trans (List.prefix_append _ _).isInfix)
  have hopen := hkeep "\x7b" "(" (hfree (.inl (by decide)) (by decide))
  have hclose := hkeep "\x7d" ")" (hfree (.inl (by decide)) (by decide))
  have hcomma := hkeep "," "|" (hfree (.inr rfl) (by decide))
  have hstar : ("*").toList = ['*'] := rfl
  simp only [regifyKeyString, hkeep ".." "." hdots, hopen, hclose, hcomma]
  rw [toList_replace_char hstar, toList_replace_char Utils.dot, List.flatMap_assoc,
    List.flatMap_map]
  refine List.flatMap_congr fun c _ => ?_
  by_cases dot : c = '.'
  · subst dot
    rfl
  · by_cases star : c = '*'
    · subst star
      rfl
    · rw [if_neg dot, List.flatMap_singleton, if_neg star, token, if_neg dot, if_neg star]
      rfl

/-- A pattern becomes the expression of its characters for the whole text. -/
theorem fullRegString_eq (glob : GlobPattern p) : fullRegString p =
    String.ofList ('^' :: (p.toList.map token).flatMap Token.text ++ ['$']) := by
  have hchars : ∀ d ∈ (regifyKeyString p).toList, d ≠ '^' ∧ d ≠ '$' := by
    intro d mem
    rw [glob.toList_regifyKeyString, List.flatMap_map, List.mem_flatMap] at mem
    obtain ⟨c, own, inside⟩ := mem
    have hcaret := glob.ne_of_mem (d := '^') own (.inl (by decide)) (by decide)
    have hdollar := glob.ne_of_mem (d := '$') own (.inl (by decide)) (by decide)
    rw [token] at inside
    split_ifs at inside <;> simp only [Token.text, List.mem_cons, List.not_mem_nil,
      or_false] at inside
    · rcases inside with rfl | rfl <;> decide
    · rcases inside with rfl | rfl <;> decide
    · exact inside ▸ ⟨hcaret, hdollar⟩
  have hhead : (regifyKeyString p).toList.head? ≠ some '^' := by
    intro first
    exact (hchars '^' (List.mem_of_head? first)).1 rfl
  have hlast : ("^" ++ regifyKeyString p).toList.getLast? ≠ some '$' := by
    intro last
    have hmem := List.mem_of_getLast? last
    rw [String.toList_append, List.mem_append] at hmem
    rcases hmem with caret | inside
    · revert caret
      decide
    · exact (hchars '$' inside).2 rfl
  simp only [fullRegString]
  rw [if_neg hhead, if_neg hlast]
  apply String.toList_inj.mp
  have hcaret : ("^").toList = ['^'] := rfl
  have hdollar : ("$").toList = ['$'] := rfl
  rw [String.toList_append, String.toList_append, glob.toList_regifyKeyString, hcaret,
    hdollar, List.singleton_append, String.toList_ofList]

/-- The expression of a pattern accepts, of the texts with as many segments, those on one line that
match. -/
theorem compiled (glob : GlobPattern p) {compile : String → Except String (String → Bool)}
    (documented : Documented compile) : ∃ reg, compile (fullRegString p) = .ok reg ∧
      ∀ key, (split p ".").length = (split key ".").length →
        (reg key = true ↔ Matches p key ∧ '\n' ∉ key.toList) := by
  have hplain : ∀ c, .lit c ∈ p.toList.map token → plain c = true := by
    intro c mem
    obtain ⟨d, own, same⟩ := List.mem_map.mp mem
    rw [token] at same
    split_ifs at same with dot star
    obtain rfl := Token.lit.inj same
    rcases glob.chars d own with ⟨plain, _⟩ | dot' | star'
    · exact plain
    · exact absurd dot' dot
    · exact absurd star' star
  obtain ⟨reg, compiled, matched⟩ := documented _ hplain
  rw [← glob.fullRegString_eq] at compiled
  refine ⟨reg, compiled, fun key same => ?_⟩
  rw [matched]
  exact matchAll_iff_matches glob.oneLine same

end GlobPattern

/-! ### What a glob finds -/

section Find

variable {compile : String → Except String (String → Bool)}
  {range : List (String × Found TrieItem) → List (String × Found TrieItem)} {p : String}

/-- The metrics that match a glob are found with their uids, each once, and nothing else is. -/
structure FindsGlob (compile : String → Except String (String → Bool))
    (range : List (String × Found TrieItem) → List (String × Found TrieItem)) (mi : MetricIndex)
    (p : String) : Prop where
  found : ∀ path uid, (path, uid) ∈ (mi.find compile range p true).1.map
      (fun item => (item.path, item.uniqueId)) ↔
    mi.nameIndex.lookup path = some uid ∧ Matches p path
  once : ((mi.find compile range p true).1.map (·.path)).Nodup

/-- The states in which a glob can be searched for. Under a single star every first segment is a
metric without a uid, a pattern that is indexed matches no other metric, and no metric that
another pattern matches has others below it or a line end in its path. -/
def Searchable (mi : MetricIndex) (p : String) : Prop :=
  if p = "*" then
    ∀ path, (mi.nameIndex.lookup path).isSome →
      mi.nameIndex.lookup ((split path ".").headD "") = some ""
  else if (mi.nameIndex.lookup p).isSome then
    ∀ path, (mi.nameIndex.lookup path).isSome → Matches p path → path = p
  else
    ∀ path, (mi.nameIndex.lookup path).isSome → Matches p path →
      ¬ LeadsOn mi path ∧ '\n' ∉ path.toList

theorem split_eq_singleton {path : String} (one : (split path ".").length = 1) :
    split path "." = [path] := by
  obtain ⟨part, only⟩ := List.length_eq_one_iff.mp one
  have hpath := intercalate_split Utils.dot path
  rw [only, String.intercalate_singleton] at hpath
  rw [only, hpath]

theorem matches_star_iff {path : String} : Matches "*" path ↔ (split path ".").length = 1 := by
  constructor
  · intro matched
    exact matched.length_eq.symm
  · intro one
    rw [Matches, split_eq_singleton one]
    refine .cons (run_iff.mpr ⟨path.toList, [], (List.append_nil _).symm, fun _ _ => rfl, rfl⟩) .nil

/-- A single star lists the first segments of all paths, without uids. -/
theorem mem_findRoot (mirrors : Mirrors mi) (perm : ∀ l, (range l).Perm l) (path uid : String) :
    (path, uid) ∈ (mi.findRoot range).map (fun item => (item.path, item.uniqueId)) ↔
      uid = "" ∧ (split path ".").length = 1 ∧
        ∃ longer, (mi.nameIndex.lookup longer).isSome ∧ split path "." <+: split longer "." := by
  have hentries : path ∈ (range ((mi.trieIndex.children "*").entries.map
      fun e => (e.1, e.2))).map Prod.fst ↔ (split path ".").length = 1 ∧
        (mi.trieIndex.node? path).isSome := by
    have hfits : List.Forall₂ Tree.Fits (split "*" ".") (split path ".") ↔
        (split path ".").length = 1 := by
      constructor
      · intro fits
        exact fits.length_eq.symm
      · intro one
        rw [split_eq_singleton one]
        exact .cons (.inl rfl) .nil
    rw [((perm _).map _).mem_iff, List.map_map, List.mem_map, ← hfits]
    constructor
    · rintro ⟨e, listed, rfl⟩
      have hfound := mem_entries_iff.mp listed
      rw [← lookup_assign_entries] at hfound
      obtain ⟨fits, c, here, _⟩ := (mirrors.sound.lookup_childrenFlat "*" e.1 e.2).mp hfound
      exact ⟨fits, Option.isSome_of_eq_some here⟩
    · rintro ⟨fits, here⟩
      obtain ⟨c, here⟩ := Option.isSome_iff_exists.mp here
      have hfound := (mirrors.sound.lookup_childrenFlat "*" path c.found).mpr ⟨fits, c, here, rfl⟩
      rw [Trie.childrenFlat, lookup_assign_entries] at hfound
      exact ⟨⟨path, c.found⟩, mem_entries_iff.mpr hfound, rfl⟩
  rw [← mirrors.nodes _ (split_ne_nil Utils.dot path), ← Trie.node?, ← hentries,
    MetricIndex.findRoot, List.map_map, List.mem_map, List.mem_map]
  constructor
  · rintro ⟨e, listed, same⟩
    obtain ⟨rfl, rfl⟩ := Prod.mk.inj same
    exact ⟨rfl, e, listed, rfl⟩
  · rintro ⟨rfl, e, listed, rfl⟩
    exact ⟨e, listed, rfl⟩

theorem found_root_iff (mirrors : Mirrors mi) (perm : ∀ l, (range l).Perm l) :
    (∀ path uid, (path, uid) ∈ (mi.findRoot range).map (fun item => (item.path, item.uniqueId)) ↔
      mi.nameIndex.lookup path = some uid ∧ Matches "*" path) ↔
    ∀ path, (mi.nameIndex.lookup path).isSome →
      mi.nameIndex.lookup ((split path ".").headD "") = some "" := by
  simp only [mem_findRoot mirrors perm, matches_star_iff]
  constructor
  · intro found path known
    obtain ⟨first, rest, parts⟩ := exists_split path "."
    have hfree : '.' ∉ first.toList := notMem_of_mem_split Utils.dot (parts ▸ List.mem_cons_self)
    have hfirst : split first "." = [first] :=
      split_of_not_infix fun inside => hfree (inside.subset (List.mem_singleton_self '.'))
    rw [parts, List.headD_cons]
    refine ((found first "").mp ⟨rfl, by rw [hfirst]; rfl, path, known, ?_⟩).1
    rw [hfirst, parts]
    exact ⟨rest, rfl⟩
  · intro named path uid
    constructor
    · rintro ⟨rfl, one, longer, known, rest, same⟩
      have hnamed := named longer known
      rw [split_eq_singleton one] at same
      rw [← same] at hnamed
      exact ⟨hnamed, one⟩
    · rintro ⟨known, one⟩
      have hsome := Option.isSome_of_eq_some known
      have hnamed := named path hsome
      rw [split_eq_singleton one] at hnamed
      exact ⟨Option.some.inj (known.symm.trans hnamed), one, path, hsome, List.prefix_rfl⟩

/-- A pattern that is indexed is answered with its own metric. -/
theorem find_known (glob : GlobPattern p) (notRoot : p ≠ "*") {uid : String}
    (known : mi.nameIndex.lookup p = some uid) :
    (mi.find compile range p true).1 = [⟨(split p ".").getLastD "", p, p, uid, 0, 1, 0⟩] := by
  have hsome : p ≠ "" := by
    rintro rfl
    exact nomatch glob.star
  rw [MetricIndex.find, if_neg notRoot, splitMetricsPath_of_commaFree glob.commaFree,
    if_neg hsome, List.foldl_cons, List.foldl_nil, findTarget_known known, if_neg List.not_mem_nil]
  rfl

/-- Another pattern is answered with the matching metrics that no others are below. -/
theorem mem_find_glob (mirrors : Mirrors mi) (perm : ∀ l, (range l).Perm l)
    (documented : Documented compile) (glob : GlobPattern p) (notRoot : p ≠ "*")
    (unknown : mi.nameIndex.lookup p = none) (path uid : String) :
    (path, uid) ∈ (mi.find compile range p true).1.map (fun item => (item.path, item.uniqueId)) ↔
      mi.nameIndex.lookup path = some uid ∧ Matches p path ∧ ¬ LeadsOn mi path ∧
        '\n' ∉ path.toList := by
  obtain ⟨reg, compiled, hreg⟩ := glob.compiled documented
  have hshows : ∀ key, PatternShows compile mi true p key ↔ Matches p key ∧ '\n' ∉ key.toList ∧
      (itemAt mi true key).isSome := by
    intro key
    constructor
    · rintro ⟨reg', compiled', fits, accepted, shown⟩
      obtain rfl := Except.ok.inj (compiled.symm.trans compiled')
      obtain ⟨matches', oneLine⟩ := (hreg key ((glob.fits_toTrieQuery key).mp fits)).mp accepted
      exact ⟨matches', oneLine, shown⟩
    · rintro ⟨matches', oneLine, shown⟩
      have hsame := matches'.length_eq
      exact ⟨reg, compiled, (glob.fits_toTrieQuery key).mpr hsame,
        (hreg key hsame).mpr ⟨matches', oneLine⟩, shown⟩
  simp only [List.mem_map, mem_find_pattern mirrors.sound perm glob.commaFree
    (glob.patternTarget notRoot unknown), hshows]
  constructor
  · rintro ⟨item, ⟨key, ⟨matches', oneLine, _⟩, shown⟩, same⟩
    obtain ⟨leaf, uid', known, rfl⟩ := mirrors.itemAt_iff.mp shown
    obtain ⟨rfl, rfl⟩ := Prod.mk.inj same
    exact ⟨known, matches', leaf, oneLine⟩
  · rintro ⟨known, matches', leaf, oneLine⟩
    have hshown := mirrors.itemAt_iff.mpr ⟨leaf, uid, known, rfl⟩
    exact ⟨_, ⟨path, ⟨matches', oneLine, Option.isSome_of_eq_some hshown⟩, hshown⟩, rfl⟩

theorem findsGlob_mirrors_iff (mirrors : Mirrors mi) (perm : ∀ l, (range l).Perm l)
    (documented : Documented compile) (glob : GlobPattern p) :
    FindsGlob compile range mi p ↔ Searchable mi p := by
  have honce := (find_commaFree true compile mirrors.sound perm glob.commaFree).1
  have hfound : FindsGlob compile range mi p ↔ ∀ path uid,
      (path, uid) ∈ (mi.find compile range p true).1.map
        (fun item => (item.path, item.uniqueId)) ↔
      mi.nameIndex.lookup path = some uid ∧ Matches p path :=
    ⟨FindsGlob.found, fun found => ⟨found, honce⟩⟩
  rw [hfound, Searchable]
  by_cases root : p = "*"
  · subst root
    rw [if_pos rfl]
    exact found_root_iff mirrors perm
  rw [if_neg root]
  rcases known : mi.nameIndex.lookup p with _ | uid
  · simp only [mem_find_glob mirrors perm documented glob root known]
    rw [if_neg (by simp)]
    constructor
    · intro found path indexed matched
      obtain ⟨uid, lookup⟩ := Option.isSome_iff_exists.mp indexed
      exact ((found path uid).mpr ⟨lookup, matched⟩).2.2
    · intro leaves path uid
      constructor
      · rintro ⟨lookup, matched, _⟩
        exact ⟨lookup, matched⟩
      · rintro ⟨lookup, matched⟩
        exact ⟨lookup, matched, leaves path (Option.isSome_of_eq_some lookup) matched⟩
  · rw [if_pos (by simp), find_known glob root known]
    constructor
    · intro found path indexed matched
      obtain ⟨uid', lookup⟩ := Option.isSome_iff_exists.mp indexed
      have hmem := (found path uid').mpr ⟨lookup, matched⟩
      exact (Prod.mk.inj (List.mem_singleton.mp hmem)).1
    · intro only path uid'
      rw [List.map_singleton, List.mem_singleton, Prod.mk.injEq]
      constructor
      · rintro ⟨rfl, rfl⟩
        exact ⟨known, matches_self path⟩
      · rintro ⟨lookup, matched⟩
        obtain rfl := only path (Option.isSome_of_eq_some lookup) matched
        exact ⟨rfl, Option.some.inj (lookup.symm.trans known)⟩

/-- After any adds, a glob finds what it should just where the metrics it matches can be told
from the rest of the index. -/
theorem findsGlob_iff (built : Built mi) (perm : ∀ l, (range l).Perm l)
    (documented : Documented compile) (glob : GlobPattern p) :
    FindsGlob compile range mi p ↔ Searchable mi p :=
  findsGlob_mirrors_iff built.mirrors perm documented glob

/-- Two metrics. -/
def pairOf (path path' : String) : MetricIndex := (MetricIndex.new.add "u" path 0).add "v" path' 0

theorem built_pairOf (path path' : String) : Built (pairOf path path') :=
  (Built.new.add "u" path 0).add "v" path' 0

theorem globPattern_below_a : GlobPattern "a.*" where
  chars := by simp [plain]
  segments := by decide
  star := by decide

theorem findsGlob_iff_siblings : Documented compileTokens ∧ Built (pairOf "a.b" "a.c") ∧
    FindsGlob compileTokens id (pairOf "a.b" "a.c") "a.*" := by
  have hbuilt := built_pairOf "a.b" "a.c"
  have hperm : ∀ l : List (String × Found TrieItem), (id l).Perm l := fun l => .refl l
  refine ⟨documented_compileTokens, hbuilt,
    (findsGlob_iff hbuilt hperm documented_compileTokens globPattern_below_a).mpr ?_⟩
  have hpaths : ∀ path, ((pairOf "a.b" "a.c").nameIndex.lookup path).isSome →
      path = "a.b" ∨ path = "a.c" := by
    intro path known
    have hlookup : (pairOf "a.b" "a.c").nameIndex.lookup path =
        if path = "a.c" then some "v" else if path = "a.b" then some "u" else none :=
      (lookup_insert _ _ _ _).trans (congrArg _ (lookup_insert _ _ _ _))
    rw [hlookup] at known
    split_ifs at known with second first
    · exact .inr second
    · exact .inl first
    · cases known
  intro path known _
  rcases hpaths path known with rfl | rfl
  all_goals
    refine ⟨fun ⟨longer, known', other, before⟩ => ?_, by decide⟩
    rcases hpaths longer known' with rfl | rfl
    all_goals first | exact other rfl | exact absurd before (by decide)

theorem inner_metric_missed : Documented compileTokens ∧ Built (pairOf "a.b" "a.b.c") ∧
    GlobPattern "a.*" ∧ ¬ FindsGlob compileTokens id (pairOf "a.b" "a.b.c") "a.*" := by
  have hbuilt := built_pairOf "a.b" "a.b.c"
  have hperm : ∀ l : List (String × Found TrieItem), (id l).Perm l := fun l => .refl l
  refine ⟨documented_compileTokens, hbuilt, globPattern_below_a, fun finds => ?_⟩
  rw [findsGlob_mirrors_iff hbuilt.mirrors hperm documented_compileTokens globPattern_below_a]
    at finds
  obtain ⟨leaf, _⟩ := finds "a.b" rfl (.cons rfl (.cons rfl .nil))
  exact leaf ⟨"a.b.c", rfl, by decide, by decide⟩

end Find

end Indexer
