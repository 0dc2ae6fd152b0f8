import Nyarix.Lib.Disk

/-! A document that a program keeps in memory and saves to one file, which it reads when it starts
again. A fault may stop a save half-way; what is left then is no document. -/

/-- How documents are printed and parsed. What is printed is parsed back, unless it is cut short. -/
structure Format (Doc Err : Type*) where
  print : Doc → Except Err String
  parse : String → Except Err Doc
  parse_print {doc : Doc} {text : String} : print doc = .ok text → parse text = .ok doc
  parse_cut {doc : Doc} {cut rest : String} : print doc = .ok (cut ++ rest) → rest ≠ "" → ∃ e, parse cut = .error e

/-- What goes wrong with a file: the host refuses it, or its text is no document. -/
inductive FileError (Err : Type*) where
  | io (path : UnixPath) (source : IoError)
  | invalid (path : UnixPath) (source : Err)

namespace Disk

def notUtf8 : IoError := .custom .invalidData "stream did not contain valid UTF-8"

def readToString (d : Disk) (p : UnixPath) : Except IoError String :=
  if p.named then
    match d.file (p.locate d.cwd) with
    | none => .error (.os 2)
    | some contents =>
      match String.fromUTF8? contents with
      | some text => .ok text
      | none => .error notUtf8
  else .error isADirectory

def remove (d : Disk) (gone : Location → Bool) : Disk :=
  { d with
    writes := d.writes.filter fun w => ¬ gone w.1
    directories := d.directories.filter fun l => ¬ gone l ∨ l <+: d.cwd
    cwd_exists := fun l h => Finset.mem_filter.mpr ⟨d.cwd_exists l h, .inr h⟩ }

theorem file_remove (d : Disk) (gone : Location → Bool) (l : Location) :
    (d.remove gone).file l = if gone l then none else d.file l := by
  unfold file lastWrite remove
  dsimp only
  rw [← List.filter_reverse, List.find?_filter]
  by_cases hgone : gone l = true
  · rw [if_pos hgone, List.find?_eq_none.mpr, Option.map_none]
    rintro w - hw
    simp only [decide_not, Bool.decide_eq_true, Bool.not_eq_true', decide_eq_true_eq] at hw
    rw [hw.2, hgone] at hw
    exact Bool.true_eq_false_eq_False hw.1
  · rw [if_neg hgone]
    congr 2
    funext w
    by_cases hw : w.1 = l
    · simp [hw, hgone]
    · simp [hw]

theorem perform_cwd (calls : List Call) (d : Disk) : (perform calls d).2.cwd = d.cwd := by
  induction calls generalizing d with
  | nil => rfl
  | cons c calls ih =>
    have hcall : (d.call c).2.cwd = d.cwd := by
      unfold call
      split
      · split <;> rfl
      · rfl
    rcases h : d.call c with ⟨_ | _, d'⟩ <;> rw [h] at hcall <;> simp only [perform, h]
    · exact hcall
    · exact (ih d').trans hcall

theorem landed_createDirAll (cwd : Location) (faults : List (Option Fault)) (dirs : List UnixPath) :
    landed cwd faults (dirs.map .createDirAll) = [] := by
  induction dirs generalizing faults with
  | nil => rfl
  | cons p dirs ih =>
    rcases faults with _ | ⟨_ | fault, faults⟩ <;> simp [landed, Call.sound, Call.leaves, Call.leavesAfter, ih]

theorem perform_createDirAll_file (dirs : List UnixPath) (d : Disk) (l : Location) :
    (perform (dirs.map .createDirAll) d).2.file l = d.file l := by
  rw [file, perform_writes, landed_createDirAll, List.append_nil, file]

theorem perform_write_cases {p : UnixPath} (hp : p.named) (contents : ByteArray) (d : Disk) :
    (∃ e, (perform [.write p contents] d).1 = .error e) ∧
        (perform [.write p contents] d).2.file (p.locate d.cwd) = d.file (p.locate d.cwd) ∨
      (∃ e, (perform [.write p contents] d).1 = .error e) ∧ (∃ size < contents.size,
        (perform [.write p contents] d).2.file (p.locate d.cwd) = some (contents.extract 0 size)) ∨
      (perform [.write p contents] d).2.file (p.locate d.cwd) = some contents := by
  have hsound : (Call.write p contents).sound = true := hp
  rw [perform, call, if_pos hsound]
  rcases d.faults with _ | ⟨_ | fault, faults⟩
  · exact .inr (.inr (by simp [perform, put, file, Call.leaves, lastWrite]))
  · exact .inr (.inr (by simp [perform, put, file, Call.leaves, lastWrite]))
  · by_cases hafter : fault.after = 0
    · exact .inl ⟨⟨_, rfl⟩, by simp [put, file, Call.leavesAfter, hafter]⟩
    · have hfile : (d.put ((Call.write p contents).makes d.cwd |>.take fault.after)
          ((Call.write p contents).leavesAfter d.cwd fault.after) faults).file (p.locate d.cwd) =
          some (contents.extract 0 (fault.after - 1)) := by
        simp [put, file, Call.leavesAfter, hafter, lastWrite]
      by_cases hsize : fault.after - 1 < contents.size
      · exact .inr (.inl ⟨⟨_, rfl⟩, _, hsize, hfile⟩)
      · refine .inr (.inr (hfile.trans (congrArg some ?_)))
        have hfull := ByteArray.extract_zero_max_size (a := contents) (i := fault.after - 1)
        rwa [max_eq_left (not_lt.mp hsize)] at hfull

theorem fromUTF8?_cut {text cut : String} {size : Nat} (hsize : size < text.toUTF8.size)
    (hcut : String.fromUTF8? (text.toUTF8.extract 0 size) = some cut) : ∃ rest, text = cut ++ rest ∧ rest ≠ "" := by
  unfold String.fromUTF8? at hcut
  split at hcut
  · next hvalid =>
    obtain rfl := Option.some.inj hcut
    have hpos : (⟨size⟩ : String.Pos.Raw).IsValid text := String.Pos.Raw.isValid_iff_isValidUTF8_extract_zero.mpr
      ⟨hsize.le, hvalid⟩
    have hrest := String.Pos.isValidUTF8_extract ⟨⟨size⟩, hpos⟩ text.endPos
    refine ⟨String.ofByteArray _ hrest, ?_, ?_⟩
    · apply String.toByteArray_inj.mp
      rw [String.toByteArray_append]
      change text.toByteArray = text.toByteArray.extract 0 size ++ text.toByteArray.extract size text.utf8ByteSize
      rw [ByteArray.extract_append_extract, Nat.zero_min]
      exact ByteArray.extract_zero_max_size.symm
    · intro hempty
      have hbytes := congrArg String.toByteArray hempty
      change text.toByteArray.extract size text.utf8ByteSize = ByteArray.empty at hbytes
      rw [ByteArray.extract_eq_empty_iff] at hbytes
      change size < text.utf8ByteSize at hsize
      change min text.utf8ByteSize text.utf8ByteSize ≤ size at hbytes
      omega
  · cases hcut

end Disk

/-- Where a document is kept and how it is changed. An edit may take files along. -/
structure Keeper (Doc Err Edit : Type*) where
  format : Format Doc Err
  /-- What there is while nothing is saved. -/
  blank : Doc
  /-- The directories that a save makes first. -/
  dirs : List UnixPath
  path : UnixPath
  named : path.named
  edit : Edit → Doc → Doc
  removes : Edit → Doc → Location → Bool

/-- A program with the document that it read or made, or with the error that reading gave. -/
structure Session (Doc Err : Type*) where
  disk : Disk
  current : Except (FileError Err) Doc

inductive SessionStep (Edit : Type*) where
  | edit (edit : Edit)
  | save
  | restart

namespace Keeper
variable {Doc Err Edit : Type*} (k : Keeper Doc Err Edit)

def save (doc : Doc) (d : Disk) : Except (FileError Err) Unit × Disk :=
  match d.perform (k.dirs.map .createDirAll) with
  | (.error (path, source), d) => (.error (.io path source), d)
  | (.ok (), d) =>
    match k.format.print doc with
    | .error source => (.error (.invalid k.path source), d)
    | .ok text =>
      match d.perform [.write k.path text.toUTF8] with
      | (.error (path, source), d) => (.error (.io path source), d)
      | (.ok (), d) => (.ok (), d)

def load (d : Disk) : Except (FileError Err) Doc :=
  match d.readToString k.path with
  | .ok text => (k.format.parse text).mapError (.invalid k.path)
  | .error source => if source.kind = .notFound then .ok k.blank else .error (.io k.path source)

/-- A program that could not read its document does nothing more with it. -/
def step (s : Session Doc Err) : SessionStep Edit → Session Doc Err
  | .edit edit =>
    match s.current with
    | .error _ => s
    | .ok doc => ⟨s.disk.remove (k.removes edit doc), .ok (k.edit edit doc)⟩
  | .save =>
    match s.current with
    | .error _ => s
    | .ok doc => { s with disk := (k.save doc s.disk).2 }
  | .restart => { s with current := k.load s.disk }

def run (s : Session Doc Err) (steps : List (SessionStep Edit)) : Session Doc Err := steps.foldl k.step s

def location (d : Disk) : Location := k.path.locate d.cwd

variable {k} {d d' : Disk} {doc : Doc}

theorem load_absent (h : d.file (k.location d) = none) : k.load d = .ok k.blank := by
  unfold location at h
  simp only [load, Disk.readToString, if_pos k.named, h]
  rfl

theorem load_of_file {contents : ByteArray} (h : d.file (k.location d) = some contents) : k.load d =
    match String.fromUTF8? contents with
    | some text => (k.format.parse text).mapError (.invalid k.path)
    | none => .error (.io k.path Disk.notUtf8) := by
  unfold location at h
  simp only [load, Disk.readToString, if_pos k.named, h]
  cases String.fromUTF8? contents <;> rfl

theorem load_whole {text : String} (h : d.file (k.location d) = some text.toUTF8) (hprint : k.format.print doc = .ok text) :
    k.load d = .ok doc := by
  have htext : String.fromUTF8? text.toUTF8 = some text := dif_pos text.isValidUTF8
  rw [load_of_file h, htext]
  dsimp only
  rw [k.format.parse_print hprint]
  rfl

theorem load_torn {text : String} {size : Nat} (hsize : size < text.toUTF8.size)
    (h : d.file (k.location d) = some (text.toUTF8.extract 0 size)) (hprint : k.format.print doc = .ok text) :
    ∃ e, k.load d = .error e := by
  rw [load_of_file h]
  cases hcut : String.fromUTF8? (text.toUTF8.extract 0 size) with
  | none => exact ⟨_, rfl⟩
  | some cut =>
    obtain ⟨rest, rfl, hrest⟩ := Disk.fromUTF8?_cut hsize hcut
    obtain ⟨e, he⟩ := k.format.parse_cut hprint hrest
    dsimp only
    rw [he]
    exact ⟨_, rfl⟩

theorem load_congr (hcwd : d'.cwd = d.cwd) (hfile : d'.file (k.location d) = d.file (k.location d)) :
    k.load d' = k.load d := by
  unfold location at hfile
  unfold load Disk.readToString
  rw [hcwd, hfile]

/-- What a save makes of the next start: it finds what it would have found before, or nothing that it can
read, or the document. Only the last is left by a save that succeeds. -/
inductive Saved (k : Keeper Doc Err Edit) (doc : Doc) (d : Disk) : Except (FileError Err) Unit × Disk → Prop
  | untouched (e : FileError Err) (d' : Disk) (cwd : d'.cwd = d.cwd) (same : k.load d' = k.load d) :
    Saved k doc d (.error e, d')
  | torn (e : FileError Err) (d' : Disk) (cwd : d'.cwd = d.cwd) (unread : ∃ e, k.load d' = .error e) :
    Saved k doc d (.error e, d')
  | whole (r : Except (FileError Err) Unit) (d' : Disk) (cwd : d'.cwd = d.cwd) (read : k.load d' = .ok doc) :
    Saved k doc d (r, d')

theorem save_saved (doc : Doc) (d : Disk) : Saved k doc d (k.save doc d) := by
  have hcwd := Disk.perform_cwd (k.dirs.map .createDirAll) d
  have hfile := Disk.perform_createDirAll_file k.dirs d (k.location d)
  unfold save
  rcases hdirs : d.perform (k.dirs.map .createDirAll) with ⟨_ | _, made⟩ <;> rw [hdirs] at hcwd hfile
  · exact .untouched _ _ hcwd (load_congr hcwd hfile)
  · cases hprint : k.format.print doc with
    | error e => exact .untouched _ _ hcwd (load_congr hcwd hfile)
    | ok text =>
      have hcwd' := (Disk.perform_cwd [.write k.path text.toUTF8] made).trans hcwd
      have hwrite := Disk.perform_write_cases k.named text.toUTF8 made
      have hlocation : k.path.locate made.cwd = k.location d := congrArg k.path.locate hcwd
      rw [hlocation] at hwrite
      dsimp only
      rcases hperform : made.perform [.write k.path text.toUTF8] with ⟨r, d'⟩
      rw [hperform] at hcwd' hwrite
      have hat : k.location d' = k.location d := congrArg k.path.locate hcwd'
      rw [← hat] at hwrite
      rcases hwrite with ⟨⟨e, rfl⟩, hsame⟩ | ⟨⟨e, rfl⟩, size, hsize, htorn⟩ | hwhole
      · exact .untouched _ _ hcwd' (load_congr hcwd' ((hat ▸ hsame).trans hfile))
      · exact .torn _ _ hcwd' (load_torn hsize htorn hprint)
      · cases r with
        | error e => exact .whole _ _ hcwd' (load_whole hwhole hprint)
        | ok _ => exact .whole _ _ hcwd' (load_whole hwhole hprint)

theorem load_remove (k : Keeper Doc Err Edit) (d : Disk) (gone : Location → Bool) :
    k.load (d.remove gone) = if gone (k.location d) then .ok k.blank else k.load d := by
  have hfile := d.file_remove gone (k.location d)
  split_ifs at hfile ⊢
  · exact load_absent hfile
  · exact load_congr rfl hfile

variable {s : Session Doc Err}

theorem run_concat (k : Keeper Doc Err Edit) (s : Session Doc Err) (steps : List (SessionStep Edit))
    (step : SessionStep Edit) : k.run s (steps ++ [step]) = k.step (k.run s steps) step := by
  simp only [run, List.foldl_append, List.foldl_cons, List.foldl_nil]

theorem step_edit (h : s.current = .ok doc) (edit : Edit) :
    k.step s (.edit edit) = ⟨s.disk.remove (k.removes edit doc), .ok (k.edit edit doc)⟩ := by rw [Keeper.step, h]

theorem step_save (h : s.current = .ok doc) : k.step s .save = ⟨(k.save doc s.disk).2, .ok doc⟩ := by
  simp only [Keeper.step, h]

theorem step_unread {e : FileError Err} (h : s.current = .error e) (step : SessionStep Edit) (hstep : step ≠ .restart) :
    k.step s step = s := by
  cases step with
  | restart => exact absurd rfl hstep
  | edit => simp only [Keeper.step, h]
  | save => simp only [Keeper.step, h]

theorem save_cwd (k : Keeper Doc Err Edit) (doc : Doc) (d : Disk) : (k.save doc d).2.cwd = d.cwd := by
  have hsaved := save_saved (k := k) doc d
  rcases hr : k.save doc d with ⟨r, d'⟩
  rw [hr] at hsaved
  cases hsaved <;> assumption

theorem step_cwd (k : Keeper Doc Err Edit) (s : Session Doc Err) (step : SessionStep Edit) :
    (k.step s step).disk.cwd = s.disk.cwd := by
  cases hdoc : s.current with
  | error e =>
    by_cases hstep : step = .restart
    · rw [hstep, Keeper.step]
    · rw [step_unread hdoc step hstep]
  | ok doc =>
    cases step with
    | edit edit => rw [step_edit hdoc, Disk.remove]
    | save => rw [step_save hdoc, save_cwd]
    | restart => rfl

theorem run_cwd (k : Keeper Doc Err Edit) (s : Session Doc Err) (steps : List (SessionStep Edit)) :
    (k.run s steps).disk.cwd = s.disk.cwd := by
  induction steps generalizing s with
  | nil => rfl
  | cons step steps ih => exact (ih (k.step s step)).trans (k.step_cwd s step)

/-- A start finds the document as it was at some earlier point, or it fails, and then a save failed. -/
def Finds (k : Keeper Doc Err Edit) (s : Session Doc Err) (steps : List (SessionStep Edit)) : Prop :=
  (∃ before doc, before <+: steps ∧ (k.run s before).current = .ok doc ∧ k.load (k.run s steps).disk = .ok doc) ∨
    (∃ e, k.load (k.run s steps).disk = .error e) ∧ ∃ before doc, before ++ [.save] <+: steps ∧
      (k.run s before).current = .ok doc ∧ ∃ e, (k.save doc (k.run s before).disk).1 = .error e

theorem Finds.same {steps : List (SessionStep Edit)} (h : k.Finds s steps) {step : SessionStep Edit}
    (hload : k.load (k.run s (steps ++ [step])).disk = k.load (k.run s steps).disk) : k.Finds s (steps ++ [step]) := by
  unfold Finds
  rw [hload]
  refine h.imp ?_ ?_
  · rintro ⟨before, doc, hbefore, hdoc, hread⟩
    exact ⟨before, doc, hbefore.trans (List.prefix_append _ _), hdoc, hread⟩
  · rintro ⟨hunread, before, doc, hbefore, hsave⟩
    exact ⟨hunread, before, doc, hbefore.trans (List.prefix_append _ _), hsave⟩

theorem finds_run (hcurrent : s.current = .ok k.blank) (habsent : s.disk.file (k.location s.disk) = none)
    (steps : List (SessionStep Edit)) : k.Finds s steps := by
  induction steps using List.reverseRecOn with
  | nil => exact .inl ⟨[], k.blank, List.prefix_rfl, hcurrent, load_absent habsent⟩
  | append_singleton steps step ih =>
    have hstep := k.run_concat s steps step
    cases step with
    | edit edit =>
      cases hdoc : (k.run s steps).current with
      | error e => exact ih.same (by rw [hstep, step_unread hdoc (.edit edit) nofun])
      | ok doc =>
        have hload := k.load_remove (k.run s steps).disk (k.removes edit doc)
        have hafter : (k.run s (steps ++ [.edit edit])).disk = (k.run s steps).disk.remove (k.removes edit doc) := by
          rw [hstep, step_edit hdoc]
        rw [← hafter] at hload
        split_ifs at hload
        · exact .inl ⟨[], k.blank, List.nil_prefix, hcurrent, hload⟩
        · exact ih.same hload
    | save =>
      cases hdoc : (k.run s steps).current with
      | error e => exact ih.same (by rw [hstep, step_unread hdoc .save nofun])
      | ok doc =>
        have hafter : (k.run s (steps ++ [.save])).disk = (k.save doc (k.run s steps).disk).2 := by
          rw [hstep, step_save hdoc]
        have hsaved := save_saved (k := k) doc (k.run s steps).disk
        rcases hsave : k.save doc (k.run s steps).disk with ⟨r, d'⟩
        rw [hsave] at hafter hsaved
        cases hsaved with
        | untouched e _ cwd same => exact ih.same (hafter ▸ same)
        | torn e _ cwd unread =>
          exact .inr ⟨hafter ▸ unread, steps, doc, List.prefix_rfl, hdoc, e, congrArg Prod.fst hsave⟩
        | whole _ _ cwd read => exact .inl ⟨steps, doc, List.prefix_append _ _, hdoc, hafter ▸ read⟩
    | restart => exact ih.same (by rw [hstep]; rfl)

def Spares (k : Keeper Doc Err Edit) (s : Session Doc Err) (steps : List (SessionStep Edit)) : Prop :=
  ∀ before edit doc, before ++ [.edit edit] <+: steps → (k.run s before).current = .ok doc →
    k.removes edit doc (k.location s.disk) = false

theorem load_until_save {steps : List (SessionStep Edit)} (hsave : .save ∉ steps) (hspares : k.Spares s steps) :
    k.load (k.run s steps).disk = k.load s.disk := by
  induction steps using List.reverseRecOn with
  | nil => rfl
  | append_singleton steps step ih =>
    rw [List.mem_append, not_or, List.mem_singleton] at hsave
    have hbefore := ih hsave.1 fun before edit doc hprefix =>
      hspares before edit doc (List.IsPrefix.trans hprefix (List.prefix_append _ _))
    rw [k.run_concat, ← hbefore]
    cases step with
    | edit edit =>
      cases hdoc : (k.run s steps).current with
      | error e => rw [step_unread hdoc (.edit edit) nofun]
      | ok doc =>
        have hkept := hspares steps edit doc List.prefix_rfl hdoc
        have hlocation : k.location (k.run s steps).disk = k.location s.disk :=
          congrArg k.path.locate (k.run_cwd s steps)
        rw [step_edit hdoc, load_remove, hlocation, hkept, if_neg Bool.false_ne_true]
    | save => exact absurd rfl hsave.2
    | restart => rfl

theorem load_of_saved {before after : List (SessionStep Edit)} {doc : Doc} (hdoc : (k.run s before).current = .ok doc)
    (hok : (k.save doc (k.run s before).disk).1 = .ok ()) (hsave : .save ∉ after)
    (hspares : k.Spares (k.run s (before ++ [.save])) after) :
    k.load (k.run s (before ++ .save :: after)).disk = .ok doc := by
  have hrun : k.run s (before ++ .save :: after) = k.run (k.run s (before ++ [.save])) after := by
    simp only [run, List.foldl_append, List.foldl_cons, List.foldl_nil]
  rw [hrun, load_until_save hsave hspares, k.run_concat, step_save hdoc]
  have hsaved := save_saved (k := k) doc (k.run s before).disk
  rcases hr : k.save doc (k.run s before).disk with ⟨r, d'⟩
  rw [hr] at hok hsaved
  cases hsaved with
  | untouched => cases hok
  | torn => cases hok
  | whole _ _ _ read => exact read

theorem load_below {R : Doc → Doc → Prop} (hrefl : ∀ doc, R doc doc)
    (htrans : ∀ {a b c : Doc}, R a b → R b c → R a c) (hblank : ∀ doc, R k.blank doc) (hedit : ∀ edit doc, R doc (k.edit edit doc)) (habsent : s.disk.file (k.location s.disk) = none)
    (steps : List (SessionStep Edit)) {found doc : Doc} (hfound : k.load (k.run s steps).disk = .ok found)
    (hdoc : (k.run s steps).current = .ok doc) : R found doc := by
  induction steps using List.reverseRecOn generalizing found doc with
  | nil =>
    -- nothing was saved yet, so the blank document is found
    obtain rfl := Except.ok.inj ((load_absent habsent).symm.trans hfound)
    exact hblank doc
  | append_singleton steps step ih =>
    rw [k.run_concat] at hfound hdoc
    cases step with
    | edit edit =>
      cases hbefore : (k.run s steps).current with
      | error e =>
        rw [step_unread hbefore (.edit edit) nofun] at hdoc
        cases hbefore.symm.trans hdoc
      | ok before =>
        rw [step_edit hbefore] at hfound hdoc
        obtain rfl := Except.ok.inj hdoc
        rw [load_remove] at hfound
        split_ifs at hfound
        · obtain rfl := Except.ok.inj hfound
          exact hblank _
        · exact htrans (ih hfound hbefore) (hedit edit before)
    | save =>
      cases hbefore : (k.run s steps).current with
      | error e =>
        rw [step_unread hbefore .save nofun] at hdoc
        cases hbefore.symm.trans hdoc
      | ok before =>
        rw [step_save hbefore] at hfound hdoc
        obtain rfl := Except.ok.inj hdoc
        have hsaved := save_saved (k := k) before (k.run s steps).disk
        rcases hr : k.save before (k.run s steps).disk with ⟨r, d'⟩
        rw [hr] at hfound hsaved
        -- a save leaves the file alone, or breaks off so that nothing can be read, or writes all of the document
        cases hsaved with
        | untouched _ _ _ same => exact ih (same ▸ hfound) hbefore
        | torn _ _ _ unread =>
          obtain ⟨e, he⟩ := unread
          cases he.symm.trans hfound
        | whole _ _ _ read =>
          obtain rfl := Except.ok.inj (read.symm.trans hfound)
          exact hrefl _
    | restart =>
      obtain rfl := Except.ok.inj (hfound.symm.trans hdoc)
      exact hrefl _

theorem current_invariant {P : Doc → Prop} (hblank : P k.blank) (hedit : ∀ edit doc, P doc → P (k.edit edit doc))
    (hcurrent : s.current = .ok k.blank) (habsent : s.disk.file (k.location s.disk) = none)
    (steps : List (SessionStep Edit)) {doc : Doc} (hdoc : (k.run s steps).current = .ok doc) : P doc := by
  induction hn : steps.length using Nat.strong_induction_on generalizing steps doc with
  | _ n ih =>
    rcases List.eq_nil_or_concat steps with rfl | ⟨steps, step, rfl⟩
    · obtain rfl := Except.ok.inj (hcurrent.symm.trans hdoc)
      exact hblank
    · rw [List.concat_eq_append, List.length_append, List.length_singleton] at hn
      rw [List.concat_eq_append, k.run_concat] at hdoc
      have hbefore : ∀ {before : List (SessionStep Edit)} {doc : Doc}, before <+: steps →
          (k.run s before).current = .ok doc → P doc :=
        fun {before} {_} hprefix hdoc => ih before.length (by have := hprefix.length_le; omega) before hdoc rfl
      cases step with
      | edit edit =>
        cases hlast : (k.run s steps).current with
        | error e =>
          rw [step_unread hlast (.edit edit) nofun] at hdoc
          cases hlast.symm.trans hdoc
        | ok last =>
          rw [step_edit hlast] at hdoc
          obtain rfl := Except.ok.inj hdoc
          exact hedit edit last (hbefore List.prefix_rfl hlast)
      | save =>
        cases hlast : (k.run s steps).current with
        | error e =>
          rw [step_unread hlast .save nofun] at hdoc
          cases hlast.symm.trans hdoc
        | ok last =>
          rw [step_save hlast] at hdoc
          obtain rfl := Except.ok.inj hdoc
          exact hbefore List.prefix_rfl hlast
      | restart =>
        rcases finds_run hcurrent habsent steps with ⟨before, found, hprefix, hfound, hload⟩ | ⟨⟨e, he⟩, -⟩
        · obtain rfl := Except.ok.inj (hload.symm.trans hdoc)
          exact hbefore hprefix hfound
        · cases he.symm.trans hdoc

end Keeper

/-- The format that knows these documents, no text of which begins with another's. -/
def Format.ofTexts {Doc : Type*} [DecidableEq Doc] (known : List (Doc × String))
    (h : ∀ a ∈ known, ∀ b ∈ known, a.2.toList <+: b.2.toList → a = b) : Format Doc Unit where
  print doc := ((known.find? (·.1 = doc)).map Prod.snd).elim (.error ()) .ok
  parse text := ((known.find? (·.2 = text)).map Prod.fst).elim (.error ()) .ok
  parse_print {doc text} hprint := by
    cases hdoc : known.find? (·.1 = doc) with
    | none => simp [hdoc] at hprint
    | some a =>
      obtain rfl : a.2 = text := by simpa [hdoc] using hprint
      cases hfind : known.find? (·.2 = a.2) with
      | none => simpa using List.find?_eq_none.mp hfind a (List.mem_of_find?_eq_some hdoc)
      | some b =>
        have hsame : b.2 = a.2 := by simpa using List.find?_some hfind
        have hb := h b (List.mem_of_find?_eq_some hfind) a (List.mem_of_find?_eq_some hdoc) (by rw [hsame])
        have ha : a.1 = doc := by simpa using List.find?_some hdoc
        simp [hb, ha]
  parse_cut {doc cut rest} hprint hrest := by
    cases hdoc : known.find? (·.1 = doc) with
    | none => simp [hdoc] at hprint
    | some a =>
      have ha : a.2 = cut ++ rest := by simpa [hdoc] using hprint
      cases hfind : known.find? (·.2 = cut) with
      | none => exact ⟨(), rfl⟩
      | some b =>
        have hcut : b.2 = cut := by simpa using List.find?_some hfind
        have hb := h b (List.mem_of_find?_eq_some hfind) a (List.mem_of_find?_eq_some hdoc)
          (by rw [hcut, ha, String.toList_append]; exact List.prefix_append _ _)
        refine absurd ?_ hrest
        rw [← hb, hcut] at ha
        have hlength := congrArg String.length ha
        rw [String.length_append] at hlength
        exact String.length_eq_zero_iff.mp (by omega)
