import Cadent.Lib.Keys
import Cadent.Lib.Words

/-!
# Globs and the expressions they are turned into

A glob matches a text of as many segments as it has itself, a star any run of characters inside
one segment. As an expression for the whole text a star becomes `.*`, which may run over dots but
not over the end of a line. Where the numbers of segments agree, the dots of the expression take
all dots of the text, and what is left to tell the two apart is the end of a line.
-/

namespace Globs

open Text

/-! ### Runs -/

/-- A run of allowed characters and what follows it. -/
def run (ok : Char → Bool) (rest : List Char → Bool) : List Char → Bool
  | [] => rest []
  | c :: cs => rest (c :: cs) || (ok c && run ok rest cs)

theorem run_iff {ok : Char → Bool} {rest : List Char → Bool} {cs : List Char} :
    run ok rest cs = true ↔ ∃ a b, cs = a ++ b ∧ (∀ c ∈ a, ok c = true) ∧ rest b = true := by
  induction cs with
  | nil =>
    rw [run]
    constructor
    · intro matched
      exact ⟨[], [], rfl, nofun, matched⟩
    · rintro ⟨a, b, same, _, matched⟩
      obtain ⟨rfl, rfl⟩ := List.append_eq_nil_iff.mp same.symm
      exact matched
  | cons c cs ih =>
    rw [run, Bool.or_eq_true, Bool.and_eq_true, ih]
    constructor
    · rintro (matched | ⟨first, a, b, rfl, all, matched⟩)
      · exact ⟨[], c :: cs, rfl, nofun, matched⟩
      · exact ⟨c :: a, b, rfl, List.forall_mem_cons.mpr ⟨first, all⟩, matched⟩
    · rintro ⟨a, b, same, all, matched⟩
      rcases a with _ | ⟨x, a⟩
      · exact .inl (same ▸ matched)
      · obtain ⟨rfl, rfl⟩ := List.cons.inj same
        obtain ⟨first, all⟩ := List.forall_mem_cons.mp all
        exact .inr ⟨first, a, b, rfl, all, matched⟩

/-! ### Expressions -/

/-- A character, `\.` or `.*`. -/
inductive Token where
  | lit (c : Char)
  | dot
  | any
  deriving DecidableEq

def Token.text : Token → List Char
  | lit c => [c]
  | dot => ['\\', '.']
  | any => ['.', '*']

/-- Whether an expression matches a whole text. -/
def matchAll : List Token → List Char → Bool
  | [], cs => cs.isEmpty
  | .lit c :: ts, cs => cs.head? == some c && matchAll ts cs.tail
  | .dot :: ts, cs => cs.head? == some '.' && matchAll ts cs.tail
  | .any :: ts, cs => run (· != '\n') (matchAll ts) cs

/-- The text that one token can take. -/
def Takes : Token → List Char → Prop
  | .lit c, cs => cs = [c]
  | .dot, cs => cs = ['.']
  | .any, cs => '\n' ∉ cs

theorem matchAll_cons {t : Token} {ts : List Token} {cs : List Char} :
    matchAll (t :: ts) cs = true ↔ ∃ a b, cs = a ++ b ∧ Takes t a ∧ matchAll ts b = true := by
  have hhead : ∀ c, (cs.head? == some c && matchAll ts cs.tail) = true ↔
      ∃ a b, cs = a ++ b ∧ a = [c] ∧ matchAll ts b = true := by
    intro c
    rw [Bool.and_eq_true, beq_iff_eq, List.head?_eq_some_iff]
    constructor
    · rintro ⟨⟨rest, rfl⟩, matched⟩
      exact ⟨[c], rest, rfl, rfl, matched⟩
    · rintro ⟨_, b, rfl, rfl, matched⟩
      exact ⟨⟨b, rfl⟩, matched⟩
  cases t with
  | lit c => exact hhead c
  | dot => exact hhead '.'
  | any =>
    rw [matchAll, run_iff]
    refine exists_congr fun a => exists_congr fun b =>
      and_congr_right fun _ => and_congr_left fun _ => ?_
    simp only [bne_iff_ne, Takes]
    exact ⟨fun all mem => all '\n' mem rfl, fun free c mem same => free (same ▸ mem)⟩

theorem matchAll_append {ts us : List Token} {cs : List Char} :
    matchAll (ts ++ us) cs = true ↔
      ∃ a b, cs = a ++ b ∧ matchAll ts a = true ∧ matchAll us b = true := by
  induction ts generalizing cs with
  | nil =>
    constructor
    · intro matched
      exact ⟨[], cs, rfl, rfl, matched⟩
    · rintro ⟨a, b, rfl, none, matched⟩
      obtain rfl := List.isEmpty_iff.mp none
      exact matched
  | cons t ts ih =>
    rw [List.cons_append, matchAll_cons]
    constructor
    · rintro ⟨a, rest, rfl, takes, matched⟩
      obtain ⟨b, c, rfl, matched, matched'⟩ := ih.mp matched
      exact ⟨a ++ b, c, (List.append_assoc _ _ _).symm,
        matchAll_cons.mpr ⟨a, b, rfl, takes, matched⟩,
        matched'⟩
    · rintro ⟨_, c, rfl, matched, matched'⟩
      obtain ⟨a, b, rfl, takes, matched⟩ := matchAll_cons.mp matched
      exact ⟨a, b ++ c, List.append_assoc _ _ _, takes, ih.mpr ⟨b, c, rfl, matched, matched'⟩⟩

/-- Every dot of an expression takes one of the text. -/
theorem count_dot_le {ts : List Token} {cs : List Char} (matched : matchAll ts cs = true) :
    ts.count .dot ≤ cs.count '.' := by
  induction ts generalizing cs with
  | nil => exact Nat.zero_le _
  | cons t ts ih =>
    obtain ⟨a, b, rfl, takes, matched⟩ := matchAll_cons.mp matched
    have hrest := ih matched
    rw [List.count_append]
    cases t with
    | dot =>
      rw [Takes] at takes
      subst takes
      simp only [List.count_cons_self, List.count_nil]
      omega
    | lit c | any =>
      rw [List.count_cons_of_ne (by simp)]
      omega

/-! ### Globs -/

/-- Whether one segment of a glob matches a segment. -/
def matchSegment : List Char → List Char → Bool
  | [], cs => cs.isEmpty
  | p :: ps, cs =>
    if p = '*' then run (fun _ => true) (matchSegment ps) cs
    else cs.head? == some p && matchSegment ps cs.tail

/-- A glob and a text with as many segments, each of which matches. -/
def Matches (glob text : String) : Prop :=
  List.Forall₂ (fun p s => matchSegment p.toList s.toList = true) (split glob ".") (split text ".")

/-- The expression for a character of a glob. -/
def token (c : Char) : Token := if c = '.' then .dot else if c = '*' then .any else .lit c

theorem matchSegment_iff {ps cs : List Char} (dotless : '.' ∉ ps) (oneLine : '\n' ∉ ps) :
    matchAll (ps.map token) cs = true ↔ matchSegment ps cs = true ∧ '\n' ∉ cs := by
  induction ps generalizing cs with
  | nil =>
    rw [List.map_nil, matchAll, matchSegment, List.isEmpty_iff]
    constructor
    · rintro rfl
      exact ⟨rfl, List.not_mem_nil⟩
    · exact And.left
  | cons p ps ih =>
    rw [List.mem_cons, not_or] at dotless oneLine
    rw [List.map_cons, matchAll_cons, matchSegment, token, if_neg (Ne.symm dotless.1)]
    split_ifs with star
    · rw [run_iff]
      constructor
      · rintro ⟨a, b, rfl, takes, matched⟩
        obtain ⟨matched, free⟩ := (ih dotless.2 oneLine.2).mp matched
        exact ⟨⟨a, b, rfl, fun _ _ => rfl, matched⟩, by
          rw [List.mem_append, not_or]
          exact ⟨takes, free⟩⟩
      · rintro ⟨⟨a, b, rfl, _, matched⟩, free⟩
        rw [List.mem_append, not_or] at free
        exact ⟨a, b, rfl, free.1, (ih dotless.2 oneLine.2).mpr ⟨matched, free.2⟩⟩
    · rw [Bool.and_eq_true, beq_iff_eq, List.head?_eq_some_iff]
      constructor
      · rintro ⟨_, b, rfl, rfl, matched⟩
        obtain ⟨matched, free⟩ := (ih dotless.2 oneLine.2).mp matched
        refine ⟨⟨⟨b, rfl⟩, matched⟩, ?_⟩
        rw [List.singleton_append, List.mem_cons, not_or]
        exact ⟨oneLine.1, free⟩
      · rintro ⟨⟨⟨b, rfl⟩, matched⟩, free⟩
        rw [List.mem_cons, not_or] at free
        exact ⟨[p], b, rfl, rfl, (ih dotless.2 oneLine.2).mpr ⟨matched, free.2⟩⟩

/-! ### Segments -/

/-- Two lists that agree are cut alike at the first occurrence of a character. -/
theorem cut_at_first_char {c : Char} {x x' d d' : List Char} (clean : c ∉ x) (clean' : c ∉ x')
    (same : x ++ c :: d = x' ++ c :: d') : x = x' ∧ d = d' := by
  have hreverse := congrArg List.reverse same
  simp only [List.reverse_append, List.reverse_cons, List.append_assoc, List.singleton_append]
    at hreverse
  obtain ⟨hd, hx⟩ := Keys.cut_at_last (by simpa using clean) (by simpa using clean') hreverse
  exact ⟨List.reverse_injective hx, List.reverse_injective hd⟩

theorem count_map_token (cs : List Char) : (cs.map token).count .dot = cs.count '.' := by
  induction cs with
  | nil => rfl
  | cons c cs ih =>
    rw [List.map_cons, List.count_cons, List.count_cons, ih, token]
    by_cases dot : c = '.'
    · simp [dot]
    · by_cases star : c = '*' <;> simp [dot, star]

theorem count_intercalate_dot {first : List Char} {rest : List (List Char)}
    (dotless : ∀ k ∈ first :: rest, '.' ∉ k) :
    (List.intercalate ['.'] (first :: rest)).count '.' = rest.length := by
  induction rest generalizing first with
  | nil =>
    rw [List.intercalate_singleton]
    exact List.count_eq_zero.mpr (dotless first (by simp))
  | cons next rest ih =>
    obtain ⟨free, dotless⟩ := List.forall_mem_cons.mp dotless
    rw [List.intercalate_cons_cons, List.count_append, List.count_append, ih dotless,
      List.count_eq_zero.mpr free, List.length_cons]
    simp [Nat.add_comm]

/-- With as many segments in the text, every dot of an expression takes the dot at its place. -/
theorem matchAll_segments {ps ks : List (List Char)} (same : ps.length = ks.length)
    (dotless : ∀ p ∈ ps, '.' ∉ p) (dotless' : ∀ k ∈ ks, '.' ∉ k) :
    matchAll ((List.intercalate ['.'] ps).map token) (List.intercalate ['.'] ks) = true ↔
      List.Forall₂ (fun p k => matchAll (p.map token) k = true) ps ks := by
  induction ps generalizing ks with
  | nil =>
    obtain rfl := List.length_eq_zero_iff.mp same.symm
    exact ⟨fun _ => .nil, fun _ => rfl⟩
  | cons p ps ih =>
    rcases ks with _ | ⟨k, ks⟩
    · cases same
    rw [List.forall₂_cons]
    rcases ps with _ | ⟨p', ps⟩
    · obtain rfl := List.length_eq_zero_iff.mp (Nat.succ.inj same).symm
      rw [List.intercalate_singleton, List.intercalate_singleton]
      simp
    rcases ks with _ | ⟨k', ks⟩
    · cases same
    have hsame := Nat.succ.inj same
    obtain ⟨free, dotless⟩ := List.forall_mem_cons.mp dotless
    obtain ⟨free', dotless'⟩ := List.forall_mem_cons.mp dotless'
    rw [← ih hsame dotless dotless', List.intercalate_cons_cons, List.intercalate_cons_cons,
      List.append_assoc, List.append_assoc, List.map_append, List.singleton_append,
      List.singleton_append, List.map_cons, matchAll_append]
    have hdots := count_intercalate_dot dotless
    have hdots' := count_intercalate_dot dotless'
    generalize List.intercalate ['.'] (p' :: ps) = glob at *
    generalize List.intercalate ['.'] (k' :: ks) = text at *
    constructor
    · rintro ⟨a, b, split, matched, fromDot⟩
      obtain ⟨_, b, rfl, rfl, rest⟩ := matchAll_cons.mp fromDot
      -- the dots after this one are all taken, so there is none before it
      have hle := count_dot_le rest
      rw [count_map_token] at hle
      have hcount := congrArg (List.count '.') split
      rw [List.count_append, List.count_append, List.singleton_append, List.count_cons_self,
        List.count_cons_self, List.count_eq_zero.mpr free'] at hcount
      have hnone : '.' ∉ a := by
        rw [← List.count_eq_zero]
        simp only [List.length_cons] at hsame
        omega
      obtain ⟨rfl, rfl⟩ := cut_at_first_char free' hnone split
      exact ⟨matched, rest⟩
    · rintro ⟨matched, rest⟩
      exact ⟨k, '.' :: text, rfl, matched, matchAll_cons.mpr ⟨['.'], text, rfl, rfl, rest⟩⟩

theorem forall₂_matchAll_iff {ps ks : List String}
    (plain : ∀ p ∈ ps, '.' ∉ p.toList ∧ '\n' ∉ p.toList) :
    List.Forall₂ (fun p k : String => matchAll (p.toList.map token) k.toList = true) ps ks ↔
      List.Forall₂ (fun p k : String => matchSegment p.toList k.toList = true) ps ks ∧
        ∀ k ∈ ks, '\n' ∉ k.toList := by
  induction ps generalizing ks with
  | nil =>
    rw [List.forall₂_nil_left_iff, List.forall₂_nil_left_iff]
    constructor
    · rintro rfl
      exact ⟨rfl, nofun⟩
    · exact And.left
  | cons p ps ih =>
    obtain ⟨⟨dotless, oneLine⟩, plain⟩ := List.forall_mem_cons.mp plain
    rcases ks with _ | ⟨k, ks⟩
    · exact ⟨nofun, fun matched => nomatch matched.1⟩
    · rw [List.forall₂_cons, List.forall₂_cons, ih plain, matchSegment_iff dotless oneLine,
        List.forall_mem_cons]
      tauto

/-- A text of as many segments matches the expression of a glob just when it matches the glob and
is one line. -/
theorem matchAll_iff_matches {glob text : String} (oneLine : '\n' ∉ glob.toList)
    (same : (split glob ".").length = (split text ".").length) :
    matchAll (glob.toList.map token) text.toList = true ↔
      Matches glob text ∧ '\n' ∉ text.toList := by
  have one : (".").toList = ['.'] := rfl
  have hsplit : ∀ s : String,
      s.toList = List.intercalate ['.'] ((split s ".").map String.toList) := by
    intro s
    conv_lhs => rw [← intercalate_split one s, String.toList_intercalate]
    rfl
  have hdotless : ∀ s : String, ∀ part ∈ (split s ".").map String.toList, '.' ∉ part := by
    intro s part mem
    obtain ⟨part, listed, rfl⟩ := List.mem_map.mp mem
    exact notMem_of_mem_split one listed
  have hlines : '\n' ∉ text.toList ↔ ∀ part ∈ split text ".", '\n' ∉ part.toList := by
    constructor
    · intro free part listed inside
      exact free (mem_of_mem_split one listed inside)
    · intro free inside
      obtain ⟨part, listed, inside⟩ := exists_mem_split one (by decide) inside
      exact free part listed inside
  rw [hlines, hsplit glob, hsplit text,
    matchAll_segments (by simpa using same) (hdotless glob) (hdotless text),
    List.forall₂_map_left_iff, List.forall₂_map_right_iff, forall₂_matchAll_iff, Matches]
  intro part listed
  exact ⟨notMem_of_mem_split one listed, fun inside => oneLine (mem_of_mem_split one listed inside)⟩

theorem matches_self (glob : String) : Matches glob glob := by
  have hself : ∀ ps : List Char, matchSegment ps ps = true := by
    intro ps
    induction ps with
    | nil => rfl
    | cons p ps ih =>
      rw [matchSegment]
      split_ifs
      · exact run_iff.mpr ⟨[p], ps, rfl, fun _ _ => rfl, ih⟩
      · simp [ih]
  exact List.forall₂_same.mpr fun part _ => hself part.toList

theorem matchSegment_of_starless {ps cs : List Char} (starless : '*' ∉ ps)
    (matched : matchSegment ps cs = true) : cs = ps := by
  induction ps generalizing cs with
  | nil => exact List.isEmpty_iff.mp matched
  | cons p ps ih =>
    rw [List.mem_cons, not_or] at starless
    rw [matchSegment, if_neg (Ne.symm starless.1), Bool.and_eq_true, beq_iff_eq,
      List.head?_eq_some_iff] at matched
    obtain ⟨⟨rest, rfl⟩, later⟩ := matched
    exact congrArg _ (ih starless.2 later)

theorem Matches.length_eq {glob text : String} (matched : Matches glob text) :
    (split glob ".").length = (split text ".").length :=
  List.Forall₂.length_eq matched

/-! ### Compiled expressions -/

/-- A character that stands for itself in an expression. -/
def plain (c : Char) : Bool := !("\\.+*?()|[]\x7b\x7d^$\n".toList.contains c)

/-- A compiler gives the documented meaning to the expressions for whole texts that are made of
plain characters, `\.` and `.*`. -/
def Documented (compile : String → Except String (String → Bool)) : Prop :=
  ∀ ts : List Token, (∀ c, .lit c ∈ ts → plain c = true) →
    ∃ reg, compile (String.ofList ('^' :: ts.flatMap Token.text ++ ['$'])) = .ok reg ∧
      ∀ text, reg text = matchAll ts text.toList

/-- The tokens up to the end of an expression. -/
def parse : List Char → Option (List Token)
  | [] => none
  | c :: cs =>
    if c = '$' then if cs = [] then some [] else none
    else if c = '\\' then
      match cs with
      | '.' :: cs => (parse cs).map (.dot :: ·)
      | _ => none
    else if c = '.' then
      match cs with
      | '*' :: cs => (parse cs).map (.any :: ·)
      | _ => none
    else if plain c then (parse cs).map (.lit c :: ·)
    else none

/-- A compiler for these expressions and no others. -/
def compileTokens (text : String) : Except String (String → Bool) :=
  match text.toList with
  | '^' :: cs =>
    match parse cs with
    | some ts => .ok fun text => matchAll ts text.toList
    | none => .error "no such expression"
  | _ => .error "no such expression"

theorem parse_text {ts : List Token} (plains : ∀ c, .lit c ∈ ts → plain c = true) :
    parse (ts.flatMap Token.text ++ ['$']) = some ts := by
  induction ts with
  | nil => rfl
  | cons t ts ih =>
    have hrest := ih fun c mem => plains c (List.mem_cons_of_mem _ mem)
    rw [List.flatMap_cons, List.append_assoc]
    cases t with
    | lit c =>
      have hplain := plains c List.mem_cons_self
      have hne : c ≠ '$' ∧ c ≠ '\\' ∧ c ≠ '.' := by
        refine ⟨?_, ?_, ?_⟩ <;> (rintro rfl; revert hplain; decide)
      rw [Token.text, List.singleton_append, parse.eq_def]
      simp only [if_neg hne.1, if_neg hne.2.1, if_neg hne.2.2, if_pos hplain, hrest]
      rfl
    | dot | any => simp [Token.text, parse, hrest]

theorem documented_compileTokens : Documented compileTokens := by
  intro ts plains
  refine ⟨fun text => matchAll ts text.toList, ?_, fun _ => rfl⟩
  rw [compileTokens, String.toList_ofList, List.cons_append]
  simp only [parse_text plains]

end Globs
