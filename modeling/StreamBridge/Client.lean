import StreamBridge.Names
import StreamBridge.Wire

/-!
# StreamBridge.Client

The client: the validation of an input line (`checkInput`), the request it sends and the two
replies it reads. As in the main server, the bytes a `recv` returned are an argument and the
bytes sent a result; `none` is undefined behaviour.
-/

namespace StreamBridge

open CString Intervals

namespace Client

def isupper (c : Byte) : Bool := 65 ≤ c && c ≤ 90

def isspace (c : Byte) : Bool := c == 32 || (9 ≤ c && c ≤ 13)

def isalnum (c : Byte) : Bool :=
  (48 ≤ c && c ≤ 57) || (65 ≤ c && c ≤ 90) || (97 ≤ c && c ≤ 122)

def checkCase (str : Bytes) : Bool := str.all fun c => !isupper c

def checkSpecials (str : Bytes) : Bool := str.all fun c => !(!isspace c && !isalnum c)

/-- `unique` with the predicate that both neighbours are spaces, then `erase`. -/
def eraseSpaces : Bytes → Bytes
  | [] => []
  | [a] => [a]
  | a :: b :: str =>
    if a = space ∧ b = space then eraseSpaces (b :: str) else a :: eraseSpaces (b :: str)

def checkNum (list : List Bytes) : Bool := list.length ≤ 10

/-- The set of the names is as large as the list. -/
def checkUnique (list : List Bytes) : Bool := list.dedup.length == list.length

/-- `checkInput`: the verdict and the new value of the global `input_list`. -/
def checkInput (input_list : List Bytes) (str : Bytes) : Option (Bool × List Bytes) :=
  let str := eraseSpaces str
  if !checkCase str then some (false, input_list)
  else if !checkSpecials str then some (false, input_list)
  else do
    let input_list ← getVector str
    if !checkNum input_list then some (false, input_list)
    else if !checkUnique input_list then some (false, input_list)
    else some (true, input_list)

/-- The string handed to `checkInput`: what `fgets` left in `input_buf` up to its first NUL, with
newlines replaced by spaces. -/
def inputString (line : Bytes) : Bytes :=
  (line.takeWhile (· != 0)).map fun c => if c = newline then space else c

def sendList (list : List Bytes) : Option Bytes := do
  let str ← strcpy 1024 (getNameStr list)
  some (zeroFill 1024 str)

def recvNoExist (received : Bytes) : Option (List Bytes) := do
  let recv_buf := zeroFill 1024 received
  let str ← cstr recv_buf
  if str.length = 0 then some [] else getVector str

def recvResult (received : Bytes) : Option (List TimeInterval) :=
  let buffer := zeroFill 1024 received
  if received.length = 0 then some []
  else do
    let len ← strlen buffer
    if len = 0 then some [] else some (deserialize buffer)

/-- `getFinalUser`: the names of `list` that are not in `nonlist`, each followed by a space. -/
def getFinalUser (list nonlist : List Bytes) : Bytes :=
  list.foldl (fun result a => if a ∈ nonlist then result else result ++ a ++ [space]) []

end Client
end StreamBridge
