import Mathlib.Data.List.Sort
import Mathlib.Data.List.TakeWhile
import Mathlib.Data.String.Basic
import AtomLogic.Completion

/-! Completed words. What is completed is the longest text before the cursor without a blank or a
parenthesis, and what is offered are the known words that start with it. The place where the word
starts is taken to be one byte behind the beginning of the character before it, so there is no
completion behind a blank of several bytes. In all other places there is exactly this one. -/

namespace AtomLogic.Completer

/-! ### Places in a line -/

/-- A place lies between two characters of a line or at one of its ends. -/
def Boundary (line : String) (place : Nat) : Prop := String.Pos.Raw.IsValid line ⟨place⟩

/-- The text of a line between two places. -/
def slice (line : String) (start pos : Nat) : String := String.Pos.Raw.extract line ⟨start⟩ ⟨pos⟩

theorem width_eq_utf8Len (text : List Char) : width text = String.utf8Len text := by
  induction text with
  | nil => rfl
  | cons c text ih =>
    rw [String.utf8Len_cons,← ih,Nat.add_comm]
    rfl

theorem utf8ByteSize_eq_width (text : String) : text.utf8ByteSize = width text.toList := by
  rw [width_eq_utf8Len,String.utf8Len_toList]

theorem boundary_iff {line : String} {place : Nat} :
    Boundary line place ↔ ∃ front back, line.toList = front ++ back ∧ place = width front := by
  rw [Boundary,String.Pos.Raw.isValid_iff_exists_append]
  constructor
  · rintro ⟨front,back,rfl,ends⟩
    refine ⟨front.toList,back.toList,String.toList_append,?_⟩
    rw [← utf8ByteSize_eq_width]
    exact congrArg String.Pos.Raw.byteIdx ends
  · rintro ⟨front,back,split,rfl⟩
    refine ⟨String.ofList front,String.ofList back,?_,?_⟩
    · rw [← String.ofList_append,← split,String.ofList_toList]
    · rw [String.rawEndPos_ofList,width_eq_utf8Len]

theorem slice_of_split {line : String} {front word back : List Char}
    (split : line.toList = front ++ word ++ back) :
    slice line (width front) (width (front ++ word)) = String.ofList word := by
  rw [slice,← String.ofList_toList (s := line),split,width_append,width_eq_utf8Len,width_eq_utf8Len]
  exact String.extract_of_valid front word back

theorem before_eq_some_iff {pos : Nat} {text front : List Char} :
    before pos text = some front ↔ ∃ back, text = front ++ back ∧ pos = width front := by
  constructor
  · intro found
    fun_induction before pos text generalizing front with
    | case1 text =>
      cases found
      exact ⟨text,rfl,rfl⟩
    | case2 => cases found
    | case3 pos c rest fits ih =>
      obtain ⟨others,taken,rfl⟩ := Option.map_eq_some_iff.mp found
      obtain ⟨back,rfl,ends⟩ := ih taken
      refine ⟨back,rfl,?_⟩
      simp only [width,List.foldr_cons] at ends ⊢
      omega
    | case4 => cases found
  · rintro ⟨back,rfl,rfl⟩
    exact before_width front back

theorem before_eq_none_iff {line : String} {pos : Nat} :
    before pos line.toList = none ↔ ¬Boundary line pos := by
  simp only [boundary_iff,Option.eq_none_iff_forall_ne_some,ne_eq,before_eq_some_iff,not_exists]

/-! ### The word before a place -/

/-- There is neither a blank nor a parenthesis in a text. -/
def Unbroken (text : List Char) : Prop := ∀ c ∈ text, isSeparator c = false

/-- A text is empty or has a separator at its end. -/
def Stops (front : List Char) : Prop := ∀ c ∈ front.getLast?, isSeparator c = true

/-- The longest unbroken text that ends at a place starts at another. -/
structure StartsWord (line : String) (pos start : Nat) : Prop where
  boundary : Boundary line start
  le : start ≤ pos
  unbroken : Unbroken (slice line start pos).toList
  longest : ∀ earlier, Boundary line earlier → earlier ≤ pos →
    Unbroken (slice line earlier pos).toList → start ≤ earlier

theorem StartsWord.unique {line : String} {pos start other : Nat} (first : StartsWord line pos start)
    (second : StartsWord line pos other) : start = other :=
  Nat.le_antisymm (first.longest other second.boundary second.le second.unbroken)
    (second.longest start first.boundary first.le first.unbroken)

theorem exists_stops (text : List Char) :
    ∃ front, text = front ++ lastWord text ∧ Stops front ∧ lastSeparator? text = front.getLast? := by
  refine ⟨(text.reverse.dropWhile fun c => !isSeparator c).reverse,?_,?_,?_⟩
  · rw [lastWord,← List.reverse_append,List.takeWhile_append_dropWhile,List.reverse_reverse]
  · intro c last
    rw [List.getLast?_reverse,← List.find?_eq_head?_dropWhile_not] at last
    exact List.find?_some last
  · rw [List.getLast?_reverse,lastSeparator?,List.find?_eq_head?_dropWhile_not]

theorem unbroken_lastWord (text : List Char) : Unbroken (lastWord text) := by
  intro c member
  rw [lastWord,List.mem_reverse] at member
  simpa using List.all_eq_true.mp List.all_takeWhile c member

theorem width_le_of_stops {front word earlier rest : List Char} (stops : Stops front)
    (same : front ++ word = earlier ++ rest) (unbroken : Unbroken rest) :
    width front ≤ width earlier := by
  rcases List.append_eq_append_iff.mp same with ⟨more,rfl,rfl⟩ | ⟨more,rfl,rfl⟩
  · rw [width_append]
    omega
  · -- The separator at the end of what stops the word would be in the unbroken text.
    rcases more.eq_nil_or_concat with rfl | ⟨more,c,rfl⟩
    · rw [List.append_nil]
    · have separates : isSeparator c = true := stops c (by simp)
      have joins : isSeparator c = false := unbroken c (by simp)
      rw [separates] at joins
      cases joins

/-- Of two texts with which a line starts, the one with fewer bytes starts the other. -/
theorem exists_append_of_width_le {first second back rest : List Char}
    (same : first ++ back = second ++ rest) (le : width first ≤ width second) :
    ∃ more, second = first ++ more := by
  rcases List.append_eq_append_iff.mp same with ⟨more,rfl,_⟩ | ⟨more,rfl,_⟩
  · exact ⟨more,rfl⟩
  · rw [width_append] at le
    have none : String.utf8Len more = 0 := by
      rw [← width_eq_utf8Len]
      omega
    rw [String.utf8Len_eq_zero.mp none,List.append_nil]
    exact ⟨[],(List.append_nil _).symm⟩

theorem eq_of_width_eq {first second back rest : List Char}
    (same : first ++ back = second ++ rest) (places : width first = width second) :
    first = second := by
  have found := before_width second rest
  rw [← same,← places,before_width] at found
  exact Option.some.inj found

theorem startsWord_of_split {line : String} {front word back : List Char}
    (split : line.toList = front ++ word ++ back) (stops : Stops front) (unbroken : Unbroken word) :
    StartsWord line (width (front ++ word)) (width front) where
  boundary := boundary_iff.mpr ⟨front,word ++ back,by rw [split,List.append_assoc],rfl⟩
  le := by rw [width_append]; exact Nat.le_add_right ..
  unbroken := by rwa [slice_of_split split,String.toList_ofList]
  longest := by
    intro place boundary le free
    obtain ⟨earlier,others,start,rfl⟩ := boundary_iff.mp boundary
    obtain ⟨rest,same⟩ := exists_append_of_width_le (start.symm.trans split) le
    rw [same] at split free
    rw [slice_of_split split,String.toList_ofList] at free
    exact width_le_of_stops stops same free

theorem boundary_behind_iff {line : String} {front back : List Char} {c : Char}
    (split : line.toList = front ++ c :: back) :
    Boundary line (width front + 1) ↔ c.utf8Size = 1 := by
  rw [boundary_iff]
  constructor
  · rintro ⟨first,rest,start,place⟩
    obtain ⟨more,rfl⟩ := exists_append_of_width_le (split.symm.trans start) (by omega)
    rw [width_append] at place
    rw [split,List.append_assoc,List.append_cancel_left_eq] at start
    cases more with
    | nil => simp [width] at place
    | cons d more =>
      obtain ⟨rfl,-⟩ := List.cons_eq_cons.mp start
      have positive := c.utf8Size_pos
      simp only [width,List.foldr_cons] at place
      omega
  · intro narrow
    refine ⟨front ++ [c],back,by simp [split],?_⟩
    rw [width_append,width,width,List.foldr_cons,List.foldr_nil,narrow]

/-! ### The known words -/

/-- Repetitions are erased by a loop that keeps its result in reverse. -/
theorem eraseReps_loop {α : Type} [BEq α] (a : α) (as kept : List α) :
    List.eraseRepsBy.loop (· == ·) a as kept = kept.reverse ++ (a :: as).eraseReps := by
  induction as generalizing a kept with
  | nil => simp [List.eraseReps,List.eraseRepsBy,List.eraseRepsBy.loop]
  | cons b as ih =>
    rw [List.eraseReps,List.eraseRepsBy,List.eraseRepsBy.loop,List.eraseRepsBy.loop]
    cases a == b with
    | true => simp only [ih,List.reverse_nil,List.nil_append]
    | false => simp only [ih,List.reverse_cons,List.reverse_nil,List.nil_append,List.append_assoc]

theorem eraseReps_cons_cons (a b : String) (as : List String) :
    (a :: b :: as).eraseReps =
      if a = b then (b :: as).eraseReps else a :: (b :: as).eraseReps := by
  by_cases same : a = b
  · subst same
    simp [List.eraseReps,List.eraseRepsBy,List.eraseRepsBy.loop]
  · rw [if_neg same,List.eraseReps,List.eraseRepsBy,List.eraseRepsBy.loop,beq_false_of_ne same]
    exact eraseReps_loop b as [a]

theorem mem_eraseReps {known : String} {words : List String} :
    known ∈ words.eraseReps ↔ known ∈ words := by
  induction words with
  | nil => rfl
  | cons a words ih =>
    cases words with
    | nil => rfl
    | cons b words =>
      rw [eraseReps_cons_cons]
      split
      next same => simp [ih,same]
      next => rw [List.mem_cons,ih,← List.mem_cons]

theorem pairwise_lt_eraseReps {words : List String} (sorted : words.Pairwise (· ≤ ·)) :
    words.eraseReps.Pairwise (· < ·) := by
  induction words with
  | nil => exact .nil
  | cons a words ih =>
    cases words with
    | nil => exact List.pairwise_singleton _ a
    | cons b words =>
      rw [List.pairwise_cons] at sorted
      obtain ⟨least,sorted⟩ := sorted
      rw [eraseReps_cons_cons]
      split
      next => exact ih sorted
      next differ =>
        refine List.pairwise_cons.mpr ⟨fun known member => ?_,ih sorted⟩
        have first : a < b := lt_of_le_of_ne (least b List.mem_cons_self) differ
        rcases List.mem_cons.mp (mem_eraseReps.mp member) with rfl | later
        · exact first
        · exact first.trans_le (List.rel_of_pairwise_cons sorted later)

theorem mem_ofWords {words : List String} {known : String} :
    known ∈ (ofWords words).words ↔ known ∈ words ∨ known ∈ commands := by
  rw [ofWords,mem_eraseReps,List.mem_mergeSort,List.mem_append]

theorem sorted_ofWords (words : List String) : (ofWords words).words.Pairwise (· < ·) :=
  pairwise_lt_eraseReps List.sortedLE_mergeSort.pairwise

theorem mem_startingWith {completer : Completer} {word : List Char} {known : String} :
    known ∈ completer.startingWith word ↔ known ∈ completer.words ∧ word <+: known.toList := by
  rw [startingWith,List.mem_filter,List.isPrefixOf_iff_prefix]

/-! ### Completions -/

/-- The longest word before a place can be replaced by any known word that starts with it. These are
given in order and once. Nothing is offered for the empty word. -/
structure Completes (words : List String) (line : String) (pos : Nat) (found : Completion) :
    Prop where
  start : StartsWord line pos found.start
  sorted : found.candidates.Pairwise (· < ·)
  mem_candidates : ∀ known, known ∈ found.candidates ↔
    slice line found.start pos ≠ "" ∧ (known ∈ words ∨ known ∈ commands) ∧
      (slice line found.start pos).toList <+: known.toList

/-- The word before a place follows a blank of several bytes. -/
def FollowsWideBlank (line : String) (pos : Nat) : Prop :=
  ∃ (front : String) (blank : Char) (rest : String), line = front.push blank ++ rest ∧
    Text.isBlank blank = true ∧ 1 < blank.utf8Size ∧
    StartsWord line pos (front.push blank).utf8ByteSize

theorem Completes.unique {words : List String} {line : String} {pos : Nat} {first second : Completion}
    (one : Completes words line pos first) (other : Completes words line pos second) :
    first = second := by
  obtain ⟨start,candidates⟩ := first
  obtain ⟨_,others⟩ := second
  obtain rfl : start = _ := one.start.unique other.start
  have same : candidates = others := one.sorted.eq_of_mem_iff other.sorted fun known =>
    (one.mem_candidates known).trans (other.mem_candidates known).symm
  rw [same]

theorem utf8Size_of_parenthesis {c : Char} (separates : isSeparator c = true)
    (solid : Text.isBlank c = false) : c.utf8Size = 1 := by
  simp only [isSeparator,solid,Bool.false_or,Bool.or_eq_true,beq_iff_eq] at separates
  rcases separates with rfl | rfl <;> rfl

theorem followsWideBlank_iff {line : String} {front word back : List Char}
    (split : line.toList = front ++ word ++ back) (stops : Stops front) (unbroken : Unbroken word) :
    FollowsWideBlank line (width (front ++ word)) ↔ ∃ c ∈ front.getLast?, c.utf8Size ≠ 1 := by
  have starts := startsWord_of_split split stops unbroken
  constructor
  · rintro ⟨first,blank,rest,rfl,-,wide,other⟩
    have same : first.toList ++ [blank] ++ rest.toList = front ++ (word ++ back) := by
      rw [← List.append_assoc,← split,String.toList_append,String.toList_push]
    have places := starts.unique other
    rw [utf8ByteSize_eq_width,String.toList_push] at places
    obtain rfl := eq_of_width_eq same places.symm
    exact ⟨blank,by simp,by omega⟩
  · rintro ⟨c,last,wide⟩
    obtain ⟨first,rfl⟩ := List.getLast?_eq_some_iff.mp last
    have positive := c.utf8Size_pos
    refine ⟨String.ofList first,c,String.ofList (word ++ back),?_,?_,by omega,?_⟩
    · rw [← String.toList_inj,split,String.toList_append,String.toList_push]
      simp
    · by_contra solid
      exact wide (utf8Size_of_parenthesis (stops c last) (Bool.eq_false_iff.mpr solid))
    · rw [utf8ByteSize_eq_width,String.toList_push,String.toList_ofList]
      exact starts

theorem complete_of_wide {completer : Completer} {line : String} {pos : Nat} {text : List Char}
    (taken : before pos line.toList = some text) {c : Char} (last : lastSeparator? text = some c)
    (wide : c.utf8Size ≠ 1) : completer.complete line pos = none := by
  simp [complete,taken,last,wide]

theorem complete_of_narrow {completer : Completer} {line : String} {text front : List Char}
    (taken : before (width text) line.toList = some text) (parts : text = front ++ lastWord text)
    (narrow : ∀ c ∈ lastSeparator? text, c.utf8Size = 1) :
    completer.complete line (width text) = some ⟨width front,
      if (lastWord text).isEmpty then [] else completer.startingWith (lastWord text)⟩ := by
  have place : width text = width front + width (lastWord text) := by
    rw [← width_append,← parts]
  have answer : (if (lastWord text).isEmpty then some ⟨width text,[]⟩
      else some ⟨width text - width (lastWord text),completer.startingWith (lastWord text)⟩) =
        some (Completion.mk (width front)
          (if (lastWord text).isEmpty then [] else completer.startingWith (lastWord text))) := by
    rw [place,Nat.add_sub_cancel]
    cases lastWord text <;> rfl
  cases last : lastSeparator? text with
  | none => simpa [complete,taken,last] using answer
  | some c => simpa [complete,taken,last,narrow c last] using answer

/-- One byte behind the beginning of the last separator there has to be a boundary. -/
theorem complete_eq_none_iff_behind {completer : Completer} {line : String}
    {front word back : List Char} {c : Char} (split : line.toList = front ++ c :: word ++ back)
    (separates : isSeparator c = true) (unbroken : Unbroken word) :
    completer.complete line (width (front ++ c :: word)) = none ↔
      ¬Boundary line (width front + 1) := by
  have taken : before (width (front ++ c :: word)) line.toList = some (front ++ c :: word) := by
    rw [split,before_width]
  have last : lastSeparator? (front ++ c :: word) = some c := by
    have joined : word.reverse.find? isSeparator = none := by
      simpa [Unbroken] using unbroken
    simp [lastSeparator?,joined,separates]
  obtain ⟨first,parts,-,-⟩ := exists_stops (front ++ c :: word)
  rw [boundary_behind_iff (split.trans (List.append_assoc ..))]
  by_cases narrow : c.utf8Size = 1
  · rw [complete_of_narrow taken parts (by simpa [last] using narrow)]
    simp [narrow]
  · simp [complete_of_wide taken last narrow,narrow]

theorem completes_of_split (words : List String) {line : String} {front word back : List Char}
    (split : line.toList = front ++ word ++ back) (stops : Stops front) (unbroken : Unbroken word) :
    Completes words line (width (front ++ word)) ⟨width front,
      if word.isEmpty then [] else (ofWords words).startingWith word⟩ where
  start := startsWord_of_split split stops unbroken
  sorted := by
    split
    next => exact .nil
    next => exact (sorted_ofWords words).filter _
  mem_candidates := by
    intro known
    rw [slice_of_split split,String.toList_ofList]
    cases word with
    | nil => simp
    | cons c word => simp [mem_startingWith,mem_ofWords]

/-- Completion fails inside a character, beyond the end of the line, and if the word follows a blank of
several bytes. In all other places its result is the one completion of the longest word before it. -/
theorem complete_exact (words : List String) (line : String) (pos : Nat) :
    ((ofWords words).complete line pos = none ↔ ¬Boundary line pos ∨ FollowsWideBlank line pos) ∧
    ∀ found, (ofWords words).complete line pos = some found ↔
      Boundary line pos ∧ ¬FollowsWideBlank line pos ∧ Completes words line pos found := by
  cases taken : before pos line.toList with
  | none =>
    have outside : ¬Boundary line pos := before_eq_none_iff.mp taken
    have failed : (ofWords words).complete line pos = none := by simp [complete,taken]
    simp [failed,outside]
  | some text =>
    have inside : Boundary line pos := by
      by_contra outside
      simp [before_eq_none_iff.mpr outside] at taken
    obtain ⟨back,split,rfl⟩ := before_eq_some_iff.mp taken
    obtain ⟨front,parts,stops,last⟩ := exists_stops text
    rw [parts] at split
    have unbroken := unbroken_lastWord text
    have wide := followsWideBlank_iff split stops unbroken
    rw [← parts,← last] at wide
    by_cases follows : FollowsWideBlank line (width text)
    · obtain ⟨c,separator,several⟩ := wide.mp follows
      simp [complete_of_wide taken separator several,follows]
    · have narrow : ∀ c ∈ lastSeparator? text, c.utf8Size = 1 := by
        simpa using mt wide.mpr follows
      have completes := completes_of_split words split stops unbroken
      rw [← parts] at completes
      rw [complete_of_narrow taken parts narrow]
      refine ⟨by simp [inside,follows],fun found => ⟨?_,fun ⟨_,_,other⟩ => ?_⟩⟩
      · rintro ⟨⟩
        exact ⟨inside,follows,completes⟩
      · rw [completes.unique other]

/-- The word behind a no-break space, which takes two bytes, could be completed but is not. -/
theorem complete_none_of_noBreakSpace :
    Boundary "\u00a0m" 3 ∧ Completes ["match"] "\u00a0m" 3 ⟨2,["match"]⟩ ∧
      (ofWords ["match"]).complete "\u00a0m" 3 = none := by
  have split : "\u00a0m".toList = ['\u00a0'] ++ ['m'] ++ [] := by decide
  have sliced : slice "\u00a0m" 2 3 = "m" := slice_of_split split
  refine ⟨boundary_iff.mpr ⟨['\u00a0','m'],[],split,by decide⟩,⟨?_,?_,fun known => ?_⟩,by decide⟩
  · exact startsWord_of_split split (by rintro c ⟨⟩; rfl) (List.forall_mem_singleton.mpr rfl)
  · exact List.pairwise_singleton _ _
  · rw [sliced,List.mem_singleton]
    constructor
    · rintro rfl
      exact ⟨by decide,.inl rfl,by decide⟩
    · rintro ⟨-,member,starts⟩
      simp only [commands,List.mem_cons,List.not_mem_nil,or_false] at member
      rcases member with rfl | rfl | rfl
      · rfl
      · simp at starts
      · simp at starts

end AtomLogic.Completer
