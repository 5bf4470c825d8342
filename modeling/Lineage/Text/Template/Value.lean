import Lineage.Text.Template.Clock

/-!
# What a field can name

The values that a field of a template reaches from the moment at which it is filled in. Each value
is of a kind and has named parts; rows and tables have items as well. The parts are given by tables,
kind by kind; a kind is a value of its own, whose parts are those of its values. Routines are values
that are shown but do nothing.
-/

namespace Lineage.Text.Template

/-! ## Kinds -/

inductive Kind
  | formatter
  | moment
  | dateTime
  | date
  | span
  | zone
  | anyZone
  | number
  | text
  | nothing
  | any
  | kind
  | row
  | table
  | view
  | wrapper
  | builtin
  | method
  | function
  | slot
  | operation
  | property
  | member
  deriving DecidableEq, Repr

def words (line : String) : List String :=
  (line.toList.splitOn ' ').map String.ofList

namespace Kind

/-- The kinds that a kind is a case of, itself first. -/
def line : Kind → List Kind
  | any => [any]
  | moment => [moment, dateTime, date, any]
  | dateTime => [dateTime, date, any]
  | zone => [zone, anyZone, any]
  | k => [k, any]

def path : Kind → List String × String
  | formatter => (["loguru", "_file_sink"], "FileDateFormatter")
  | moment => (["loguru", "_datetime"], "datetime")
  | dateTime => (["datetime"], "datetime")
  | date => (["datetime"], "date")
  | span => (["datetime"], "timedelta")
  | zone => (["datetime"], "timezone")
  | anyZone => (["datetime"], "tzinfo")
  | number => ([], "int")
  | text => ([], "str")
  | nothing => ([], "NoneType")
  | any => ([], "object")
  | kind => ([], "type")
  | row => ([], "tuple")
  | table => ([], "dict")
  | view => ([], "mappingproxy")
  | wrapper => ([], "method-wrapper")
  | builtin => ([], "builtin_function_or_method")
  | method => ([], "method")
  | function => ([], "function")
  | slot => ([], "wrapper_descriptor")
  | operation => ([], "method_descriptor")
  | property => ([], "getset_descriptor")
  | member => ([], "member_descriptor")

def name (k : Kind) : String := k.path.2

def home (k : Kind) : String :=
  if k.path.1.isEmpty then "builtins" else ".".intercalate k.path.1

def display (k : Kind) : String :=
  "<class '" ++ ".".intercalate (k.path.1 ++ [k.path.2]) ++ "'>"

def commonWrappers : List String :=
  words ("__delattr__ __eq__ __ge__ __getattribute__ __gt__ __hash__ __init__ __le__ __lt__ " ++
    "__ne__ __repr__ __setattr__ __str__")

def commonBuiltins : List String :=
  words "__dir__ __format__ __getstate__ __reduce__ __reduce_ex__ __sizeof__"

def commonStatics : List String :=
  words "__init_subclass__ __new__ __subclasshook__"

/-- The operations that the values of a kind have besides. -/
def wrappers : Kind → List String
  | moment | dateTime | date => words "__add__ __radd__ __rsub__ __sub__"
  | span =>
    words ("__abs__ __add__ __bool__ __divmod__ __floordiv__ __mod__ __mul__ __neg__ __pos__ " ++
      "__radd__ __rdivmod__ __rfloordiv__ __rmod__ __rmul__ __rsub__ __rtruediv__ __sub__ " ++
      "__truediv__")
  | number =>
    words ("__abs__ __add__ __and__ __bool__ __divmod__ __float__ __floordiv__ __index__ " ++
      "__int__ __invert__ __lshift__ __mod__ __mul__ __neg__ __or__ __pos__ __pow__ __radd__ " ++
      "__rand__ __rdivmod__ __rfloordiv__ __rlshift__ __rmod__ __rmul__ __ror__ __rpow__ " ++
      "__rrshift__ __rshift__ __rsub__ __rtruediv__ __rxor__ __sub__ __truediv__ __xor__")
  | text =>
    words "__add__ __contains__ __getitem__ __iter__ __len__ __mod__ __mul__ __rmod__ __rmul__"
  | nothing => words "__bool__"
  | row => words "__add__ __contains__ __getitem__ __iter__ __len__ __mul__ __rmul__"
  | table =>
    words "__contains__ __delitem__ __getitem__ __ior__ __iter__ __len__ __or__ __ror__ __setitem__"
  | view => words "__contains__ __getitem__ __ior__ __iter__ __len__ __or__ __ror__"
  | kind => words "__call__ __or__ __ror__"
  | wrapper | builtin | method => words "__call__"
  | function | slot | operation => words "__call__ __get__"
  | property | member => words "__delete__ __get__ __set__"
  | _ => []

/-- The other routines that the values of a kind have besides. -/
def builtins : Kind → List String
  | moment | dateTime =>
    words ("astimezone ctime date dst isocalendar isoformat isoweekday replace strftime time " ++
      "timestamp timetuple timetz toordinal tzname utcoffset utctimetuple weekday")
  | date =>
    words "ctime isocalendar isoformat isoweekday replace strftime timetuple toordinal weekday"
  | span => words "total_seconds"
  | zone => words "__getinitargs__ dst fromutc tzname utcoffset"
  | anyZone => words "dst fromutc tzname utcoffset"
  | number =>
    words ("__ceil__ __floor__ __getnewargs__ __round__ __trunc__ as_integer_ratio bit_count " ++
      "bit_length conjugate to_bytes")
  | text =>
    words ("__getnewargs__ capitalize casefold center count encode endswith expandtabs find " ++
      "format format_map index isalnum isalpha isascii isdecimal isdigit isidentifier islower " ++
      "isnumeric isprintable isspace istitle isupper join ljust lower lstrip partition " ++
      "removeprefix removesuffix replace rfind rindex rjust rpartition rsplit rstrip split " ++
      "splitlines startswith strip swapcase title translate upper zfill")
  | row => words "__getnewargs__ count index"
  | table => words "__reversed__ clear copy get items keys pop popitem setdefault update values"
  | view => words "__reversed__ copy get items keys values"
  | kind => words "__instancecheck__ __prepare__ __subclasscheck__ __subclasses__ mro"
  | _ => []

/-- The other routines that a kind has for itself. -/
def statics : Kind → List String
  | moment | dateTime =>
    words ("combine fromisocalendar fromisoformat fromordinal fromtimestamp now strptime today " ++
      "utcfromtimestamp utcnow")
  | date => words "fromisocalendar fromisoformat fromordinal fromtimestamp today"
  | number => words "from_bytes"
  | text => words "maketrans"
  | row | view => words "__class_getitem__"
  | table => words "__class_getitem__ fromkeys"
  | _ => []

def figures : Kind → List String
  | moment | dateTime => words "year month day hour minute second microsecond fold tzinfo"
  | date => words "year month day"
  | span => words "days seconds microseconds"
  | number => words "real imag numerator denominator"
  | wrapper => words "__self__ __objclass__"
  | builtin => words "__self__"
  | method => words "__func__ __self__"
  | function =>
    words ("__annotations__ __builtins__ __closure__ __code__ __defaults__ __globals__ " ++
      "__kwdefaults__")
  | slot | operation | property | member => words "__objclass__"
  | _ => []

/-- The sizes of what the values of a kind are shown as, and written as. -/
def sizes : Kind → Nat × Nat
  | formatter => (62, 62)
  | moment => (32, 87)
  | dateTime => (26, 51)
  | date => (10, 27)
  | span => (14, 34)
  | zone => (3, 47)
  | wrapper | builtin => (64, 64)
  | method => (118, 118)
  | function => (58, 58)
  | slot | operation | property | member => (50, 50)
  | _ => (20, 20)

/-- The size of what is said about the values of a kind, none if nothing is said. -/
def aboutSize? : Kind → Option Nat
  | dateTime => some 222
  | date => some 47
  | span => some 233
  | zone => some 47
  | anyZone => some 38
  | number => some 605
  | text => some 421
  | any => some 88
  | kind => some 75
  | row => some 233
  | table => some 370
  | _ => none

/-- The routines about which more is said than fits into a part of a path. -/
def wordy : Kind → List String
  | moment | dateTime => words "isoformat"
  | number => words "from_bytes to_bytes"
  | text =>
    words ("encode endswith index maketrans partition replace rindex rpartition rsplit split " ++
      "startswith")
  | _ => []

end Kind

/-! ## Values -/

inductive Value
  | formatter
  | moment
  | dateTime (last : Bool)
  | date (last : Bool)
  | span (days seconds microseconds : Int)
  | zone
  | number (n : Int) (certain : Bool)
  | text (shown : Shown)
  | nothing
  | kind (k : Kind)
  | row (items : List Value)
  | table (isView : Bool) (entries : List (String × Value))
  | routine (k : Kind) (name : String) (owner : Value)
  | unknown (size : Nat)

namespace Value

def kindOf : Value → Kind
  | formatter => .formatter
  | moment => .moment
  | dateTime _ => .dateTime
  | date _ => .date
  | span .. => .span
  | zone => .zone
  | number .. => .number
  | text _ => .text
  | nothing => .nothing
  | kind _ => .kind
  | row _ => .row
  | table isView _ => if isView then .view else .table
  | routine k .. => k
  | unknown _ => .any

def sample (size : Nat) : Value := .text (.sample size)

def phrase (s : String) : Value := .text (.ofString s)

/-- A number that depends on the moment or the machine. -/
def guess (n : Int) : Value := .number n false

def exact (n : Int) : Value := .number n true

def about (k : Kind) : Value :=
  match k.aboutSize? with
  | some size => sample size
  | none => .nothing

def aboutRoutine (k : Kind) (name : String) (owner : Value) : Value :=
  match k with
  | .method | .function | .member => .nothing
  | _ =>
    let owned := match owner with
      | kind k => k
      | v => v.kindOf
    sample (if name == "__subclasshook__" || owned.wordy.contains name then 300 else 40)

/-- What a kind says in place of what is said about its values. -/
def aboutKind (k : Kind) : Value :=
  match k with
  | .wrapper | .builtin | .slot | .operation | .property | .member =>
    .routine .property "__doc__" (.kind k)
  | .method => sample 38
  | .function => sample 286
  | k => about k

def constant? (k : Kind) (name : String) : Option Value :=
  match k, name with
  | .moment, "max" | .dateTime, "max" => some (.dateTime true)
  | .moment, "min" | .dateTime, "min" => some (.dateTime false)
  | .date, "max" => some (.date true)
  | .date, "min" => some (.date false)
  | .moment, "resolution" | .dateTime, "resolution" | .span, "resolution" => some (.span 0 0 1)
  | .date, "resolution" => some (.span 1 0 0)
  | .span, "max" => some (.span 999999999 86399 999999)
  | .span, "min" => some (.span (-999999999) 0 0)
  | .zone, "utc" | .zone, "min" | .zone, "max" => some .zone
  | .table, "__hash__" | .view, "__hash__" => some .nothing
  | .formatter, "__module__" | .moment, "__module__" => some (phrase k.home)
  | _, _ => none

def dateFigure? (last : Bool) : String → Option Value
  | "year" => some (exact (if last then 9999 else 1))
  | "month" => some (exact (if last then 12 else 1))
  | "day" => some (exact (if last then 31 else 1))
  | _ => none

def timeFigure? (last : Bool) : String → Option Value
  | "hour" => some (exact (if last then 23 else 0))
  | "minute" => some (exact (if last then 59 else 0))
  | "second" => some (exact (if last then 59 else 0))
  | "microsecond" => some (exact (if last then 999999 else 0))
  | "fold" => some (exact 0)
  | "tzinfo" => some .nothing
  | _ => none

def surroundings : List (String × Value) :=
  [("__name__", phrase Kind.formatter.home), ("FileDateFormatter", .kind .formatter)] ++
    (words ("__builtins__ __cached__ __doc__ __file__ __loader__ __package__ __spec__ datetime " ++
      "decimal glob numbers os shutil string partial ST_DEV ST_INO string_parsers get_ctime " ++
      "set_ctime aware_now generate_rename_path Compression Retention Rotation FileSink")).map
        fun name => (name, .unknown 60)

def routinePart? (k : Kind) (own : String) (owner : Value) (name : String) : Option Value :=
  match k, name with
  | .method, "__func__" => some (.routine .function own owner)
  | .wrapper, "__objclass__" | .slot, "__objclass__" | .operation, "__objclass__" =>
    some (.kind .any)
  | .property, "__objclass__" | .member, "__objclass__" => some (.kind .any)
  | .builtin, "__module__" => some .nothing
  | .method, "__self__" | .wrapper, "__self__" | .builtin, "__self__" => some owner
  | _, "__name__" => some (phrase own)
  | _, "__qualname__" => some (sample 20)
  | .wrapper, "__text_signature__" | .builtin, "__text_signature__" => some (sample 20)
  | .slot, "__text_signature__" | .operation, "__text_signature__" => some (sample 20)
  | .method, _ | .function, _ =>
    match name with
    | "__module__" => some (phrase Kind.formatter.home)
    | "__annotations__" | "__dict__" => some (.table false [])
    | "__globals__" => some (.table false surroundings)
    | "__builtins__" => some (.unknown Text.Template.maxShown)
    | "__code__" => some (.unknown 100)
    | "__defaults__" => some (if own == "__init__" then .row [.nothing] else .nothing)
    | "__closure__" | "__kwdefaults__" => some .nothing
    | "__get__" => some (.routine .wrapper name (.routine .function own owner))
    | _ => none
  | _, _ => none

def figure? (v : Value) (name : String) : Option Value :=
  match v with
  | formatter =>
    match name with
    | "datetime" => some .moment
    | "__dict__" => some (.table false [("datetime", .moment)])
    | "__weakref__" => some .nothing
    | "__init__" | "__format__" => some (.routine .method name v)
    | _ => none
  | moment =>
    match name with
    | "year" => some (guess 2000)
    | "month" | "day" => some (guess 1)
    | "hour" | "minute" | "second" | "microsecond" => some (guess 0)
    | "fold" => some (exact 0)
    | "tzinfo" => some .zone
    | "__dict__" => some (.table false [])
    | "__weakref__" => some .nothing
    | "__format__" => some (.routine .method name v)
    | _ => none
  | dateTime last => (dateFigure? last name).or (timeFigure? last name)
  | date last => dateFigure? last name
  | span days seconds microseconds =>
    match name with
    | "days" => some (exact days)
    | "seconds" => some (exact seconds)
    | "microseconds" => some (exact microseconds)
    | _ => none
  | number _ certain =>
    match name with
    | "real" | "numerator" => some v
    | "imag" => some (.number 0 certain)
    | "denominator" => some (.number 1 certain)
    | _ => none
  | routine k own owner => routinePart? k own owner name
  | unknown _ => some (.unknown 60)
  | _ => none

def routine? (v : Value) (name : String) : Option Value :=
  let k := v.kindOf
  if (Kind.commonWrappers ++ k.wrappers).contains name then some (.routine .wrapper name v)
  else if (Kind.commonBuiltins ++ k.builtins).contains name then some (.routine .builtin name v)
  else if (Kind.commonStatics ++ k.statics).contains name then
    some (.routine .builtin name (.kind k))
  else none

/-- What a kind has in place of the routines and figures of its values. -/
def general? (k : Kind) (name : String) : Option Value :=
  let v := Value.kind k
  if (k = .formatter && (name == "__init__" || name == "__format__")) ||
      (k = .moment && name == "__format__") then some (.routine .function name v)
  else if (k = .formatter || k = .moment) && name == "__weakref__" then
    some (.routine .property name v)
  else if (Kind.commonWrappers ++ k.wrappers).contains name then some (.routine .slot name v)
  else if (Kind.commonBuiltins ++ k.builtins).contains name then some (.routine .operation name v)
  else if (Kind.commonStatics ++ k.statics).contains name then some (.routine .builtin name v)
  else if k.figures.contains name then
    some (.routine (if k = .span then .member else .property) name v)
  else none

def entryNames (k : Kind) : List String :=
  match k with
  | .formatter => words "__module__ __init__ __format__ __dict__ __weakref__ __doc__"
  | .nothing => words "__repr__ __bool__ __new__ __doc__"
  | k =>
    "__doc__" :: "__new__" :: Kind.commonWrappers ++ k.wrappers ++ k.builtins ++ k.statics ++
      k.figures

def tableOf (k : Kind) : Value :=
  .table true ((entryNames k).map fun name =>
    (name, ((constant? k name).or (general? k name)).getD (aboutKind k)))

def kindPart? (k : Kind) (name : String) : Option Value :=
  match name with
  | "__name__" | "__qualname__" => some (phrase k.name)
  | "__module__" => some (phrase k.home)
  | "__mro__" => some (.row (k.line.map .kind))
  | "__bases__" => some (.row ((k.line.drop 1).take 1 |>.map .kind))
  | "__base__" => some (((k.line.drop 1).head?.map Value.kind).getD .nothing)
  | "__dict__" => some (tableOf k)
  | "__basicsize__" => some (guess 48)
  | "__itemsize__" => some (guess 0)
  | "__dictoffset__" | "__weakrefoffset__" => some (guess 0)
  | "__flags__" => some (guess 284160)
  | "__text_signature__" => some (if k = .any then sample 2 else .nothing)
  | "__annotations__" => if k = .formatter || k = .moment then some (.table false []) else none
  | _ => none

def part? (v : Value) (name : String) : Option Value :=
  if name == "__class__" then some (.kind v.kindOf)
  else
    match v with
    | kind k =>
      if name == "__doc__" then some (aboutKind k)
      else
        (kindPart? k name).or ((constant? k name).or ((general? k name).or
          ((v.routine? name))))
    | routine k own owner =>
      if name == "__doc__" then some (aboutRoutine k own owner)
      else (v.figure? name).or (v.routine? name)
    | _ =>
      if name == "__doc__" then some (about v.kindOf)
      else (v.figure? name).or ((constant? v.kindOf name).or (v.routine? name))

/-! ## Items -/

/-- Why a value has no such item. -/
inductive ItemFault
  | noItems
  | noSuchIndex
  | noSuchKey (key : String)
  | noSuchNumber (n : Nat)
  deriving DecidableEq, Repr

/-- The item of a value at a key, which is a position if it is a number. -/
def item (v : Value) (key : String) (position : Option Nat) : Except ItemFault Value :=
  match v, position with
  | row items, some n => match items[n]? with
    | some v => .ok v
    | none => .error .noSuchIndex
  | text shown, some n =>
    if n < shown.text.length then .ok (.text ⟨(shown.text.drop n).take 1, shown.certain⟩)
    else .error .noSuchIndex
  | table _ entries, none => match entries.lookup key with
    | some v => .ok v
    | none => .error (.noSuchKey key)
  | table _ _, some n => .error (.noSuchNumber n)
  | kind k, _ =>
    if [Kind.row, .table, .view, .kind].contains k then .ok (.unknown 60) else .error .noItems
  | unknown _, _ => .ok (.unknown 60)
  | _, _ => .error .noItems

/-! ## Showing -/

/-- What a row of values is written as, given what they are written as. -/
def rowText : List Shown → Shown
  | [item] => .append (.append (.ofString "(") item) (.ofString ",)")
  | items =>
    let between := items.zipIdx.foldl
      (fun text (item, i) => .append (if i = 0 then text else .append text (.ofString ", ")) item)
      (Shown.ofString "(")
    .append between (.ofString ")")

def written : Value → Shown
  | text s => .append (.ofString "'") (.append s (.ofString "'"))
  | number n certain => ⟨(toString n).toList, certain⟩
  | nothing => .ofString "None"
  | kind k => .ofString k.display
  | row items => rowText (items.map written)
  | table isView entries => .sample ((if isView then 16 else 2) + 50 * entries.length)
  | unknown size => .sample size
  | v => .sample v.kindOf.sizes.2

def shown : Value → Shown
  | text s => s
  | dateTime last =>
    .ofString (if last then "9999-12-31 23:59:59.999999" else "0001-01-01 00:00:00")
  | date last => .ofString (if last then "9999-12-31" else "0001-01-01")
  | formatter => .sample Kind.formatter.sizes.1
  | moment => .sample Kind.moment.sizes.1
  | zone => .sample Kind.zone.sizes.1
  | span days seconds microseconds =>
    if days == 0 && seconds == 0 && microseconds == 1 then .ofString "0:00:00.000001"
    else .sample Kind.span.sizes.1
  | v => v.written

end Value

end Lineage.Text.Template
