import Bpm.Interchange.PnpmYaml
import Bpm.Lib.Fuel

/-!
# How far pnpm's YAML is read

What the reader does with a text can be told without building a tree: `scanFlow` reads the
characters of a flow collection with a stack of open brackets, and `scanLines` reads the
lines of a document with a stack of open blocks.  The descent of the reader follows them.
Only in a flow sequence it can go on for ever: where an item should begin and the text ends
or a brace closes, it reads an empty item and stays where it is.
-/

namespace Bpm

open Text

namespace PnpmYaml

/-- An open flow collection. -/
inductive Frame
  | items
  | entries
deriving DecidableEq

/-- Where a character of a flow collection stands. -/
inductive FlowPlace
  | start
  | key (quoted : Bool)
  | value
  | scalar
  | after
deriving DecidableEq

/-- How reading ends: with a rest, with a refusal, or not at all. -/
inductive Verdict
  | read (rest : Str)
  | refused
  | stuck
deriving DecidableEq

/-- What a character leads to. -/
inductive Move
  | go (place : FlowPlace) (top : Frame) (below : List Frame)
  | close (below : List Frame)
  | stuck
deriving DecidableEq

/-- The first character of an item or entry, or the bracket that closes the collection. -/
def moveStart (top : Frame) (below : List Frame) (c : Char) : Move :=
  match top with
  | .items =>
      if c = ']' then .close below
      else if c = '}' then .stuck
      else if c = ',' then .go .start .items below
      else if c = '{' then .go .start .entries (.items :: below)
      else if c = '[' then .go .start .items (.items :: below)
      else .go .scalar .items below
  | .entries =>
      if c = '}' then .close below
      else if isQuote c then .go (.key true) .entries below
      else if c = ':' then .go .value .entries below
      else .go (.key false) .entries below

/-- A character behind an element. -/
def moveAfter (top : Frame) (below : List Frame) (c : Char) : Move :=
  if c = ',' then .go .start top below else moveStart top below c

def move (place : FlowPlace) (top : Frame) (below : List Frame) (c : Char) : Move :=
  match place with
  | .start => if isSpace c then .go .start top below else moveStart top below c
  | .key true => .go (.key (!isQuote c)) top below
  | .key false =>
      if isQuote c then .go (.key true) top below
      else if c = ':' then .go .value top below
      else .go (.key false) top below
  | .value =>
      if c = '{' then .go .start .entries (top :: below)
      else if c = '[' then .go .start .items (top :: below)
      else if endsScalar c then moveAfter top below c
      else .go .scalar top below
  | .scalar => if endsScalar c then moveAfter top below c else .go .scalar top below
  | .after => if isSpace c then .go .after top below else moveAfter top below c

/-- The end of the text inside a collection. -/
def atEnd (place : FlowPlace) (top : Frame) : Verdict :=
  match place, top with
  | .key _, _ => .refused
  | _, .entries => .refused
  | _, .items => .stuck

/-- Read a text inside the collection `top`, which stands in those `below`. -/
def scanFlow : FlowPlace → Frame → List Frame → Str → Verdict
  | place, top, _, [] => atEnd place top
  | place, top, below, c :: text =>
      match move place top below c with
      | .go place top below => scanFlow place top below text
      | .close [] => .read text
      | .close (top :: below) => scanFlow .after top below text
      | .stuck => .stuck

/-- Behind a collection that is closed. -/
def scanRest (below : List Frame) (text : Str) : Verdict :=
  match below with
  | [] => .read text
  | top :: below => scanFlow .after top below text

theorem scanFlow_cons (place : FlowPlace) (top : Frame) (below : List Frame) (c : Char)
    (text : Str) : scanFlow place top below (c :: text) =
      match move place top below c with
      | .go place top below => scanFlow place top below text
      | .close below => scanRest below text
      | .stuck => .stuck := by
  rw [scanFlow]
  cases move place top below c with
  | go place top below => rfl
  | close below => cases below <;> rfl
  | stuck => rfl

/-! ## Scalars and white space -/

theorem scanFlow_space {place : FlowPlace} (hplace : place = .start ∨ place = .after)
    (top : Frame) (below : List Frame) (text : Str) :
    scanFlow place top below text = scanFlow place top below (trimStart text) := by
  induction text with
  | nil => rfl
  | cons c text ih =>
      by_cases hc : isSpace c = true
      · have hmove : move place top below c = .go place top below := by
          rcases hplace with rfl | rfl
          · simp [move, hc]
          · simp [move, hc]
        have htrim : trimStart (c :: text) = trimStart text := by
          simp [trimStart, hc]
        rw [scanFlow_cons, hmove, htrim]
        exact ih
      · have htrim : trimStart (c :: text) = c :: text := by
          simp [trimStart, hc]
        rw [htrim]

/-- A scalar is skipped up to the character that ends it. -/
theorem scanFlow_scalar (top : Frame) (below : List Frame) (text : Str) :
    scanFlow .scalar top below text =
      scanFlow .after top below (text.dropWhile fun c => !endsScalar c) := by
  induction text with
  | nil => cases top <;> rfl
  | cons c text ih =>
      by_cases hc : endsScalar c = true
      · have hspace : isSpace c = false := by
          simp only [endsScalar, List.mem_cons, List.not_mem_nil, or_false,
            decide_eq_true_eq] at hc
          rcases hc with rfl | rfl | rfl <;> decide
        rw [List.dropWhile_cons_of_neg (by simp [hc]), scanFlow_cons, scanFlow_cons]
        simp [move, hc, hspace]
      · rw [List.dropWhile_cons_of_pos (by simp [hc]), scanFlow_cons]
        simpa [move, hc] using ih

/-- A value that is not a collection is skipped like a scalar. -/
theorem scanFlow_value {text : Str} (h : opensFlow text = false) (top : Frame)
    (below : List Frame) : scanFlow .value top below text =
      scanFlow .after top below (text.dropWhile fun c => !endsScalar c) := by
  rw [← scanFlow_scalar]
  cases text with
  | nil => cases top <;> rfl
  | cons c text =>
      simp only [opensFlow, Bool.or_eq_false_iff, decide_eq_false_iff_not] at h
      rw [scanFlow_cons, scanFlow_cons]
      simp [move, h]

/-- Keys are searched alike. -/
theorem scanFlow_key (quoted : Bool) (before text : Str) (below : List Frame) :
    scanFlow (.key quoted) .entries below text =
      match splitColon (fun _ => true) quoted before text with
      | some parts => scanFlow .value .entries below parts.2
      | none => .refused := by
  induction text generalizing quoted before with
  | nil => cases quoted <;> rfl
  | cons c text ih =>
      rw [scanFlow_cons]
      cases quoted with
      | true =>
          simp only [move, splitColon]
          exact ih (!isQuote c) (before ++ [c])
      | false =>
          by_cases hquote : isQuote c = true
          · simp only [move, splitColon, hquote, if_true]
            exact ih true (before ++ [c])
          · by_cases hcolon : c = ':'
            · have hmark : isQuote ':' = false := by decide
              simp [move, splitColon, hcolon, hmark]
            · simp only [move, splitColon, hquote, hcolon, if_false, decide_false,
                Bool.false_and, Bool.false_eq_true]
              exact ih false (before ++ [c])

theorem splitColon_length {ends : Str → Bool} {quoted : Bool} {before text key rest : Str}
    (h : splitColon ends quoted before text = some (key, rest)) : rest.length < text.length := by
  induction text generalizing quoted before with
  | nil => cases quoted <;> cases h
  | cons c text ih =>
      cases quoted with
      | true => exact (ih h).trans (Nat.lt_succ_self _)
      | false =>
          simp only [splitColon] at h
          split at h
          · exact (ih h).trans (Nat.lt_succ_self _)
          · split at h
            · cases h
              exact Nat.lt_succ_self _
            · exact (ih h).trans (Nat.lt_succ_self _)

theorem trimStart_idem (text : Str) : trimStart (trimStart text) = trimStart text := by
  induction text with
  | nil => rfl
  | cons c text ih =>
      by_cases hc : isSpace c = true
      · simpa [trimStart, hc] using ih
      · simp [trimStart, hc]

theorem trimStart_length (text : Str) : (trimStart text).length ≤ text.length :=
  (List.dropWhile_suffix _).length_le

theorem not_isSpace_of_trimStart {text rest : Str} {c : Char} (h : trimStart text = c :: rest) :
    isSpace c = false := by
  have := List.head?_dropWhile_not (p := isSpace) text
  rw [show text.dropWhile isSpace = c :: rest from h] at this
  simpa using this

/-- Behind an element, the next one starts. -/
theorem scanFlow_after (top : Frame) (below : List Frame) (rest : Str) :
    scanFlow .after top below rest = scanFlow .start top below (afterElement rest) := by
  rw [scanFlow_space (.inr rfl)]
  simp only [afterElement]
  cases htrim : trimStart rest with
  | nil => cases top <;> rfl
  | cons c text =>
      have hspace := not_isSpace_of_trimStart htrim
      by_cases hcomma : c = ','
      · subst hcomma
        have hstrip : stripPrefix [','] (',' :: text) = some text := by simp [stripPrefix]
        rw [scanFlow_cons]
        simp [move, moveAfter, hspace, hstrip]
      · have hstrip : stripPrefix [','] (c :: text) = none := by
          simp [stripPrefix, Ne.symm hcomma]
        rw [scanFlow_cons, hstrip, Option.getD_none, scanFlow_cons]
        simp [move, moveAfter, hspace, hcomma]

theorem afterElement_length (rest : Str) : (afterElement rest).length ≤ rest.length := by
  have htrim := trimStart_length rest
  simp only [afterElement, stripPrefix]
  split
  · simp only [Option.getD_some, List.length_drop]
    omega
  · exact htrim

/-- Read a value inside the collections `below`. -/
def scanValue (below : List Frame) (text : Str) : Verdict :=
  match below, text with
  | top :: below, text => scanFlow .value top below text
  | [], '{' :: rest => scanFlow .start .entries [] rest
  | [], '[' :: rest => scanFlow .start .items [] rest
  | [], text => .read (text.dropWhile fun c => !endsScalar c)

theorem scanValue_entries (below : List Frame) (rest : Str) :
    scanValue below ('{' :: rest) = scanFlow .start .entries below rest := by
  cases below with
  | nil => rfl
  | cons top below => rw [scanValue, scanFlow_cons]; rfl

theorem scanValue_items (below : List Frame) (rest : Str) :
    scanValue below ('[' :: rest) = scanFlow .start .items below rest := by
  cases below with
  | nil => rfl
  | cons top below => rw [scanValue, scanFlow_cons]; rfl

theorem scanValue_scalar {text : Str} (h : opensFlow text = false) (below : List Frame) :
    scanValue below text = scanRest below (text.dropWhile fun c => !endsScalar c) := by
  cases below with
  | cons top below => exact scanFlow_value h top below
  | nil =>
      cases text with
      | nil => rfl
      | cons c text =>
          simp only [opensFlow, Bool.or_eq_false_iff, decide_eq_false_iff_not] at h
          unfold scanValue
          split
          · rename_i heq
            simp at heq
          · rename_i heq
            exact absurd (List.cons.inj heq).1 h.1
          · rename_i heq
            exact absurd (List.cons.inj heq).1 h.2
          · rfl

/-! ## The descent follows the characters -/

open Fuel

/-- A reader that goes where the scan goes: it settles at a tree and a rest of at most `size`
characters, settles at a refusal, or goes on for ever. -/
inductive Followed (f : Nat → Result (Yaml × Str)) (size : Nat) (scan : List Frame → Verdict) :
    Prop
  | read (tree : Yaml) (rest : Str) (hsettles : Settles .outOfFuel f (.ok (tree, rest)))
      (hsize : rest.length ≤ size) (hscan : ∀ below, scan below = scanRest below rest)
  | refused (e : ReadError) (hne : e ≠ .outOfFuel) (hsettles : Settles .outOfFuel f (.error e))
      (hscan : ∀ below, scan below = .refused)
  | endless (h : Endless .outOfFuel f) (hscan : ∀ below, scan below = .stuck)

theorem Followed.mono {f : Nat → Result (Yaml × Str)} {size size' : Nat}
    {scan : List Frame → Verdict} (h : Followed f size scan) (hle : size ≤ size') :
    Followed f size' scan := by
  cases h with
  | read tree rest hsettles hsize hscan => exact .read tree rest hsettles (hsize.trans hle) hscan
  | refused e hne hsettles hscan => exact .refused e hne hsettles hscan
  | endless h hscan => exact .endless h hscan

theorem Followed.congr {f : Nat → Result (Yaml × Str)} {size : Nat}
    {scan scan' : List Frame → Verdict} (h : Followed f size scan)
    (hscan : ∀ below, scan' below = scan below) : Followed f size scan' := by
  have : scan' = scan := funext hscan
  exact this ▸ h

/-- The same reader after one unit of fuel. -/
theorem Followed.succ {f g : Nat → Result (Yaml × Str)} {size : Nat} {scan : List Frame → Verdict}
    (h : Followed f size scan) (hzero : g 0 = .error .outOfFuel)
    (hsucc : ∀ m, g (m + 1) = f m) : Followed g size scan := by
  cases h with
  | read tree rest hsettles hsize hrest =>
      exact .read tree rest (hsettles.succ hzero hsucc) hsize hrest
  | refused e hne hsettles hrest => exact .refused e hne (hsettles.succ hzero hsucc) hrest
  | endless h hrest => exact .endless (h.succ hzero hsucc) hrest

/-- A value, then what comes behind it. -/
theorem Followed.andThen {f : Nat → Result (Yaml × Str)}
    {g : Nat → Yaml × Str → Result (Yaml × Str)} {size size' : Nat}
    {scan scan' : List Frame → Verdict} {frame : Frame} (h : Followed f size scan)
    (hscan : ∀ below, scan' below = scan (frame :: below))
    (hnext : ∀ tree rest, Settles .outOfFuel f (.ok (tree, rest)) → rest.length ≤ size →
      Followed (fun m => g m (tree, rest)) size' fun below => scanFlow .after frame below rest) :
    Followed (fun m => f m >>= g m) size' scan' := by
  cases h with
  | read tree rest hsettles hsize hrest =>
      have hscans : ∀ below, scan' below = scanFlow .after frame below rest :=
        fun below => (hscan below).trans (hrest (frame :: below))
      cases hnext tree rest hsettles hsize with
      | read tree' rest' hsettles' hsize' hrest' =>
          exact .read tree' rest' (hsettles.andThen hsettles') hsize' fun b =>
            (hscans b).trans (hrest' b)
      | refused e hne hsettles' hrest' =>
          exact .refused e hne (hsettles.andThen hsettles') fun b => (hscans b).trans (hrest' b)
      | endless h' hrest' =>
          exact .endless (h'.andThen_right hsettles) fun b => (hscans b).trans (hrest' b)
  | refused e hne hsettles hrest =>
      exact .refused e hne hsettles.andThen_error fun b => (hscan b).trans (hrest _)
  | endless h hrest => exact .endless h.andThen_left fun b => (hscan b).trans (hrest _)

/-- How much is left behind a value: something has been read, unless the scalar is empty. -/
def valueSize (text : Str) : Nat :=
  match text with
  | [] => 0
  | c :: rest => if endsScalar c then rest.length + 1 else rest.length

/-- A value is followed when the collections inside it are. -/
theorem parseFlow_followed {n : Nat}
    (hentries : ∀ rest : Str, rest.length < n → ∀ entries,
      Followed (fun m => parseFlowEntries m rest entries) (rest.length - 1)
        fun below => scanFlow .start .entries below rest)
    (hitems : ∀ rest : Str, rest.length < n → ∀ items,
      Followed (fun m => parseFlowItems m rest items) (rest.length - 1)
        fun below => scanFlow .start .items below rest)
    (text : Str) (hn : text.length ≤ n) :
    Followed (fun m => parseFlow m text) (valueSize text) fun below => scanValue below text := by
  by_cases hopen : opensFlow text = true
  · cases text with
    | nil => cases hopen
    | cons c rest =>
        have hrest : rest.length < n := by simpa using hn
        simp only [opensFlow, Bool.or_eq_true, decide_eq_true_eq] at hopen
        rcases hopen with rfl | rfl
        · exact (((hentries rest hrest []).succ rfl fun _ => rfl).congr
            (scanValue_entries · rest)).mono (by simp [valueSize, endsScalar])
        · exact (((hitems rest hrest []).succ rfl fun _ => rfl).congr
            (scanValue_items · rest)).mono (by simp [valueSize, endsScalar])
  · have hopen : opensFlow text = false := by simpa using hopen
    refine .read (.str (unquote (text.takeWhile fun c => !endsScalar c)))
      (text.dropWhile fun c => !endsScalar c) ?_ ?_ (scanValue_scalar hopen)
    · refine (Settles.const _).succ rfl fun m => ?_
      unfold parseFlow
      split
      · cases hopen
      · cases hopen
      · rfl
    · cases text with
      | nil => simp [valueSize]
      | cons c rest =>
          by_cases hends : endsScalar c = true
          · simp [valueSize, hends]
          · simpa [valueSize, hends] using (List.dropWhile_suffix _).length_le

/-- Where an item should begin and the text ends or a brace closes, nothing is read. -/
theorem parseFlowItems_endless {rest : Str}
    (h : trimStart rest = [] ∨ ∃ text, trimStart rest = '}' :: text) (items : List Yaml) :
    Endless .outOfFuel fun m => parseFlowItems m rest items := by
  intro m
  induction m generalizing rest items with
  | zero => rfl
  | succ m ih =>
      have hstrip : ∀ c : Char, c ≠ '}' → stripPrefix [c] (trimStart rest) = none := by
        intro c hc
        rcases h with h | ⟨text, h⟩
        · rw [h]
          rfl
        · rw [h]
          simp [stripPrefix, hc]
      have hvalue : ∀ m, parseFlow (m + 1) (trimStart rest) =
          .ok (.str (unquote []), trimStart rest) := by
        intro m
        rcases h with h | ⟨text, h⟩
        · rw [h]
          rfl
        · rw [h]
          rfl
      unfold parseFlowItems
      simp only [hstrip ']' (by decide)]
      cases m with
      | zero => rfl
      | succ m =>
          have hafter : afterElement (trimStart rest) = trimStart rest := by
            simp only [afterElement, trimStart_idem, hstrip ',' (by decide), Option.getD_none]
          simp only [hvalue, bind, Except.bind, hafter]
          exact ih (by rwa [trimStart_idem]) _

theorem scanFlow_start_items {c : Char} (text : Str) (hspace : isSpace c = false) (hclose : c ≠ ']')
    (hbrace : c ≠ '}') (below : List Frame) :
    scanFlow .start .items below (c :: text) = scanValue (.items :: below) (c :: text) := by
  rw [scanValue, scanFlow_cons, scanFlow_cons]
  simp only [move, hspace, moveStart, moveAfter, hclose, hbrace, if_false, Bool.false_eq_true]
  by_cases hcomma : c = ','
  · subst hcomma
    rfl
  · simp [hcomma, endsScalar, hclose, hbrace]

theorem scanFlow_start_entries {text : Str} (hspace : trimStart text = text)
    (hclose : stripPrefix ['}'] text = none) (below : List Frame) :
    scanFlow .start .entries below text = scanFlow (.key false) .entries below text := by
  cases text with
  | nil => rfl
  | cons c text =>
      have hc := not_isSpace_of_trimStart hspace
      have hbrace : c ≠ '}' := by
        rintro rfl
        simp [stripPrefix] at hclose
      rw [scanFlow_cons, scanFlow_cons]
      simp only [move, hc, moveStart, hbrace, if_false, Bool.false_eq_true]

theorem parseFlowItems_step {n : Nat} {rest : Str} (hrest : rest.length ≤ n)
    (hflow : ∀ text : Str, text.length ≤ n →
      Followed (fun m => parseFlow m text) (valueSize text) fun below => scanValue below text)
    (hitems : ∀ rest : Str, rest.length < n → ∀ items,
      Followed (fun m => parseFlowItems m rest items) (rest.length - 1)
        fun below => scanFlow .start .items below rest) (items : List Yaml) :
    Followed (fun m => parseFlowItems m rest items) (rest.length - 1)
      fun below => scanFlow .start .items below rest := by
  have hlength := trimStart_length rest
  have hscan : ∀ below, scanFlow .start .items below rest =
      scanFlow .start .items below (trimStart rest) :=
    fun below => scanFlow_space (.inl rfl) .items below rest
  cases htrim : trimStart rest with
  | nil =>
      refine .endless (parseFlowItems_endless (.inl htrim) items) fun below => ?_
      rw [hscan, htrim]
      rfl
  | cons c text =>
      have hspace := not_isSpace_of_trimStart htrim
      rw [htrim, List.length_cons] at hlength
      by_cases hclose : c = ']'
      · subst hclose
        have hstrip : stripPrefix [']'] (']' :: text) = some text := by simp [stripPrefix]
        refine .read (.seq items) text ((Settles.const _).succ rfl fun m => ?_) (by omega)
          fun below => ?_
        · simp only [parseFlowItems, htrim, hstrip]
        · rw [hscan, htrim, scanFlow_cons]
          rfl
      by_cases hbrace : c = '}'
      · subst hbrace
        refine .endless (parseFlowItems_endless (.inr ⟨text, htrim⟩) items) fun below => ?_
        rw [hscan, htrim, scanFlow_cons]
        rfl
      · have hstrip : stripPrefix [']'] (c :: text) = none := by
          simp [stripPrefix, Ne.symm hclose]
        have hstart : ∀ below, scanFlow .start .items below rest =
            scanValue (.items :: below) (c :: text) := fun below =>
          (hscan below).trans (htrim ▸ scanFlow_start_items text hspace hclose hbrace below)
        have hseq : Followed (fun m => parseFlow m (c :: text) >>= fun p =>
            parseFlowItems m (afterElement p.2) (items ++ [p.1])) (rest.length - 1)
            fun below => scanFlow .start .items below rest := by
          have hitem := hflow (c :: text) (by simp only [List.length_cons]; omega)
          refine hitem.andThen hstart fun tree rest' hsettles hsize => ?_
          · have hshort : (afterElement rest').length ≤ text.length := by
              have hafter := afterElement_length rest'
              by_cases hends : endsScalar c = true
              · -- an empty scalar before a comma, which is dropped
                have hcomma : c = ',' := by
                  simpa [endsScalar, hclose, hbrace] using hends
                subst hcomma
                have hempty : Settles ReadError.outOfFuel (fun m => parseFlow m (',' :: text))
                    (.ok (.str (unquote []), ',' :: text)) :=
                  (Settles.const _).succ rfl fun m => rfl
                cases hsettles.unique hempty
                have htrimmed : trimStart (',' :: text) = ',' :: text := by
                  simp [trimStart, hspace]
                simp [afterElement, htrimmed, stripPrefix]
              · have : valueSize (c :: text) = text.length := by simp [valueSize, hends]
                omega
            have hnext := hitems (afterElement rest') (by omega) (items ++ [tree])
            have hle : (afterElement rest').length - 1 ≤ rest.length - 1 := by omega
            exact (hnext.mono hle).congr fun below => scanFlow_after .items below rest'
        refine hseq.succ rfl fun m => ?_
        simp only [parseFlowItems, htrim, hstrip]

theorem parseFlowEntries_step {n : Nat} {rest : Str} (hrest : rest.length ≤ n)
    (hflow : ∀ text : Str, text.length ≤ n →
      Followed (fun m => parseFlow m text) (valueSize text) fun below => scanValue below text)
    (hentries : ∀ rest : Str, rest.length < n → ∀ entries,
      Followed (fun m => parseFlowEntries m rest entries) (rest.length - 1)
        fun below => scanFlow .start .entries below rest) (entries : List (Str × Yaml)) :
    Followed (fun m => parseFlowEntries m rest entries) (rest.length - 1)
      fun below => scanFlow .start .entries below rest := by
  have hlength := trimStart_length rest
  have hscan : ∀ below, scanFlow .start .entries below rest =
      scanFlow .start .entries below (trimStart rest) :=
    fun below => scanFlow_space (.inl rfl) .entries below rest
  cases hstrip : stripPrefix ['}'] (trimStart rest) with
  | some after =>
      have htext : trimStart rest = '}' :: after := by
        obtain ⟨hstart, hdrop⟩ := Option.ite_none_right_eq_some.mp hstrip
        obtain ⟨text, htext⟩ := List.isPrefixOf_iff_prefix.mp hstart
        rw [← htext] at hdrop ⊢
        rw [← Option.some.inj hdrop]
        rfl
      rw [htext, List.length_cons] at hlength
      refine .read (.map entries) after ((Settles.const _).succ rfl fun m => ?_) (by omega)
        fun below => ?_
      · simp only [parseFlowEntries, hstrip]
      · rw [hscan, htext, scanFlow_cons]
        rfl
  | none =>
      have hkey : ∀ below, scanFlow .start .entries below rest =
          match splitColon (fun _ => true) false [] (trimStart rest) with
          | some parts => scanFlow .value .entries below parts.2
          | none => .refused := by
        intro below
        rw [hscan, scanFlow_start_entries (trimStart_idem rest) hstrip, scanFlow_key false []]
      cases hsplit : splitColon (fun _ => true) false [] (trimStart rest) with
      | none =>
          refine .refused (.missingKey (trimStart rest)) (by simp)
            ((Settles.const _).succ rfl fun m => ?_) fun below => ?_
          · simp only [parseFlowEntries, hstrip, splitFlowKey, hsplit, bind, Except.bind]
          · rw [hkey, hsplit]
      | some parts =>
          obtain ⟨key, text⟩ := parts
          have hshort := splitColon_length hsplit
          have hstart : ∀ below, scanFlow .start .entries below rest =
              scanValue (.entries :: below) text := by
            intro below
            rw [hkey, hsplit]
            rfl
          have hseq : Followed (fun m => parseFlow m text >>= fun p =>
              parseFlowEntries m (afterElement p.2) (entries ++ [(unquote key, p.1)]))
              (rest.length - 1) fun below => scanFlow .start .entries below rest := by
            refine (hflow text (by omega)).andThen hstart fun tree rest' _ hsize => ?_
            · have hafter := afterElement_length rest'
              have hvalue : valueSize text ≤ text.length := by
                unfold valueSize
                split
                · simp
                · split
                  · simp
                  · simp
              have hnext := hentries (afterElement rest') (by omega)
                (entries ++ [(unquote key, tree)])
              have hle : (afterElement rest').length - 1 ≤ rest.length - 1 := by omega
              exact (hnext.mono hle).congr fun below => scanFlow_after .entries below rest'
          refine hseq.succ rfl fun m => ?_
          simp only [parseFlowEntries, hstrip, splitFlowKey, hsplit, bind, Except.bind]

/-- Reading flow collections goes where the scan goes. -/
theorem flow_followed (n : Nat) :
    (∀ rest : Str, rest.length < n → ∀ entries,
      Followed (fun m => parseFlowEntries m rest entries) (rest.length - 1)
        fun below => scanFlow .start .entries below rest) ∧
    ∀ rest : Str, rest.length < n → ∀ items,
      Followed (fun m => parseFlowItems m rest items) (rest.length - 1)
        fun below => scanFlow .start .items below rest := by
  induction n with
  | zero => exact ⟨fun _ h => absurd h (Nat.not_lt_zero _), fun _ h => absurd h (Nat.not_lt_zero _)⟩
  | succ n ih =>
      have hflow := parseFlow_followed ih.1 ih.2
      exact ⟨fun rest hrest => parseFlowEntries_step (by omega) hflow ih.1,
        fun rest hrest => parseFlowItems_step (by omega) hflow ih.2⟩

theorem value_followed (text : Str) :
    Followed (fun m => parseFlow m text) (valueSize text) fun below => scanValue below text :=
  parseFlow_followed (flow_followed text.length).1 (flow_followed text.length).2 text le_rfl

/-! ## Values on a line -/

/-- How reading the value of a line ends. -/
def scanInline (value : Str) : Verdict :=
  if opensFlow value then
    match scanValue [] value with
    | .read rest => if (trim rest).isEmpty then .read [] else .refused
    | .refused => .refused
    | .stuck => .stuck
  else if value.contains '\n' then .refused
  else .read []

/-- A reader of a value that ends as a scan says. -/
inductive Ends {α : Type} (f : Nat → Result α) (verdict : Verdict) : Prop
  | read (a : α) (hsettles : Settles .outOfFuel f (.ok a)) (h : verdict = .read [])
  | refused (e : ReadError) (hne : e ≠ .outOfFuel) (hsettles : Settles .outOfFuel f (.error e))
      (h : verdict = .refused)
  | endless (hendless : Endless .outOfFuel f) (h : verdict = .stuck)

theorem parseInline_ends (value : Str) :
    Ends (fun m => parseInline m value) (scanInline value) := by
  by_cases hopen : opensFlow value = true
  · have hread : (fun m => parseInline m value) = fun m => parseFlow m value >>= fun p =>
        if (trim p.2).isEmpty then .ok p.1 else .error (.trailingContent p.2) := by
      funext m
      simp only [parseInline, hopen, if_true]
    rw [hread]
    cases value_followed value with
    | read tree rest hsettles hsize hscan =>
        have hverdict : scanValue [] value = .read rest := hscan []
        by_cases hempty : (trim rest).isEmpty = true
        · refine .read tree (hsettles.andThen ?_) ?_
          · simp only [hempty, if_true]
            exact Settles.const _
          · simp only [scanInline, hopen, if_true, hverdict, hempty]
        · refine .refused (.trailingContent rest) (by simp) (hsettles.andThen ?_) ?_
          · simp only [if_neg hempty]
            exact Settles.const _
          · simp [scanInline, hopen, hverdict, hempty]
    | refused e hne hsettles hscan =>
        refine .refused e hne hsettles.andThen_error ?_
        simp only [scanInline, hopen, if_true, hscan []]
    | endless h hscan =>
        refine .endless h.andThen_left ?_
        simp only [scanInline, hopen, if_true, hscan []]
  · by_cases hnewline : value.contains '\n' = true
    · refine .refused .multiLineScalar (by simp) ?_ ?_
      · simp only [parseInline, if_neg hopen, if_pos hnewline]
        exact Settles.const _
      · rw [scanInline, if_neg hopen, if_pos hnewline]
    · refine .read (.str (unquote value)) ?_ ?_
      · simp only [parseInline, if_neg hopen, if_neg hnewline]
        exact Settles.const _
      · rw [scanInline, if_neg hopen, if_neg hnewline]

end PnpmYaml
end Bpm
