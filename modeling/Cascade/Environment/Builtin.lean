import Cascade.Environment.Table

/-! The environments that are known without being provided by a plugin. A global
is read-only unless it is listed as writable. -/

namespace Cascade.Environment

/-- Global variables in order; those of the second list may be written to. -/
def globals (names writable : List String) : Value × Value :=
  (.str "globals", .mapping (names.map fun n => (.str n, .bool (writable.contains n))))

def parserOptions (options : Entries) : Value × Value := (.str "parserOptions", .mapping options)

def ecmaVersion (n : Int) : Value × Value := parserOptions [(.str "ecmaVersion", .int n)]

def globalReturn : Value × Value :=
  parserOptions [(.str "ecmaFeatures", .mapping [(.str "globalReturn", .bool true)])]

def es2015Names : List String :=
  ["ArrayBuffer", "DataView", "Float32Array", "Float64Array", "Int16Array", "Int32Array",
   "Int8Array", "Map", "Promise", "Proxy", "Reflect", "Set", "Symbol", "Uint16Array",
   "Uint32Array", "Uint8Array", "Uint8ClampedArray", "WeakMap", "WeakSet"]

def es2017Names : List String :=
  es2015Names ++ ["Atomics", "SharedArrayBuffer"]

def es2020Names : List String :=
  es2017Names ++ ["BigInt", "BigInt64Array", "BigUint64Array", "globalThis"]

def es2021Names : List String :=
  es2020Names ++ ["AggregateError", "FinalizationRegistry", "WeakRef"]

def builtinNames : List String :=
  ["Array", "Boolean", "constructor", "Date", "decodeURI", "decodeURIComponent", "encodeURI",
   "encodeURIComponent", "Error", "escape", "eval", "EvalError", "Function", "hasOwnProperty",
   "Infinity", "isFinite", "isNaN", "isPrototypeOf", "JSON", "Math", "NaN", "Number", "Object",
   "parseFloat", "parseInt", "propertyIsEnumerable", "RangeError", "ReferenceError", "RegExp",
   "String", "SyntaxError", "toLocaleString", "toString", "TypeError", "undefined", "unescape",
   "URIError", "valueOf"]

def browserNames : List String :=
  ["addEventListener", "alert", "atob", "blur", "btoa", "cancelAnimationFrame", "clearInterval",
   "clearTimeout", "close", "confirm", "console", "CustomEvent", "document", "Element", "Event",
   "EventTarget", "fetch", "FormData", "getComputedStyle", "Headers", "history", "HTMLElement",
   "localStorage", "location", "matchMedia", "MutationObserver", "navigator", "Node", "onload",
   "open", "performance", "postMessage", "prompt", "removeEventListener", "Request",
   "requestAnimationFrame", "Response", "screen", "self", "sessionStorage", "setInterval",
   "setTimeout", "URL", "URLSearchParams", "WebSocket", "window", "Worker", "XMLHttpRequest"]

def workerNames : List String :=
  ["addEventListener", "close", "console", "fetch", "importScripts", "onmessage", "postMessage",
   "removeEventListener", "self", "setInterval", "setTimeout", "clearInterval", "clearTimeout"]

def serviceworkerNames : List String :=
  ["caches", "Cache", "CacheStorage", "clients", "Client", "Clients", "ExtendableEvent",
   "FetchEvent", "registration", "self", "skipWaiting"]

def nodeNames : List String :=
  ["__dirname", "__filename", "Buffer", "clearImmediate", "clearInterval", "clearTimeout",
   "console", "exports", "global", "Intl", "module", "process", "queueMicrotask", "require",
   "setImmediate", "setInterval", "setTimeout", "TextDecoder", "TextEncoder", "URL",
   "URLSearchParams"]

def commonjsNames : List String :=
  ["exports", "global", "module", "require"]

def sharedNodeBrowserNames : List String :=
  ["clearInterval", "clearTimeout", "console", "setInterval", "setTimeout", "URL",
   "URLSearchParams"]

def amdNames : List String :=
  ["define", "require"]

def mochaNames : List String :=
  ["after", "afterEach", "before", "beforeEach", "context", "describe", "it", "mocha", "run",
   "setup", "specify", "suite", "suiteSetup", "suiteTeardown", "teardown", "test", "xcontext",
   "xdescribe", "xit", "xspecify"]

def jasmineNames : List String :=
  ["afterAll", "afterEach", "beforeAll", "beforeEach", "describe", "expect", "fail", "fdescribe",
   "fit", "it", "jasmine", "pending", "spyOn", "xdescribe", "xit"]

def jestNames : List String :=
  ["afterAll", "afterEach", "beforeAll", "beforeEach", "describe", "expect", "fit", "it", "jest",
   "test", "xdescribe", "xit", "xtest"]

def qunitNames : List String :=
  ["asyncTest", "deepEqual", "equal", "expect", "module", "notDeepEqual", "notEqual", "ok",
   "QUnit", "start", "stop", "strictEqual", "test", "throws"]

def jqueryNames : List String :=
  ["$", "jQuery"]

def prototypejsNames : List String :=
  ["$", "$$", "$A", "$F", "$H", "$R", "$break", "$continue", "$w", "Class", "Prototype"]

def shelljsNames : List String :=
  ["cat", "cd", "cp", "echo", "env", "exec", "exit", "find", "grep", "ls", "mkdir", "mv", "pwd",
   "rm", "sed", "test", "touch", "which"]

def mongoNames : List String :=
  ["_isWindows", "_rand", "BulkWriteResult", "cat", "db", "DBCollection", "DBQuery", "hex_md5",
   "ISODate", "MongoBinData", "ObjectId", "print", "printjson", "sleep", "tojson"]

def webextensionsNames : List String :=
  ["browser", "chrome", "opr"]

def greasemonkeyNames : List String :=
  ["GM", "GM_addStyle", "GM_getValue", "GM_info", "GM_setValue", "GM_xmlhttpRequest",
   "unsafeWindow"]

/-- The table of built-in environments. -/
def builtin : Table := Table.ofList [
  ("builtin", [globals builtinNames []]),
  ("es6", [globals es2015Names [], ecmaVersion 6]),
  ("es2015", [globals es2015Names [], ecmaVersion 6]),
  ("es2016", [globals es2015Names [], ecmaVersion 7]),
  ("es2017", [globals es2017Names [], ecmaVersion 8]),
  ("es2018", [globals es2017Names [], ecmaVersion 9]),
  ("es2019", [globals es2017Names [], ecmaVersion 10]),
  ("es2020", [globals es2020Names [], ecmaVersion 11]),
  ("es2021", [globals es2021Names [], ecmaVersion 12]),
  ("es2022", [globals es2021Names [], ecmaVersion 13]),
  ("browser", [globals browserNames ["onload"]]),
  ("worker", [globals workerNames ["onmessage", "self"]]),
  ("serviceworker", [globals serviceworkerNames []]),
  ("node", [globals nodeNames ["exports"], globalReturn]),
  ("commonjs", [globals commonjsNames ["exports"], globalReturn]),
  ("shared-node-browser", [globals sharedNodeBrowserNames []]),
  ("amd", [globals amdNames []]),
  ("mocha", [globals mochaNames []]),
  ("jasmine", [globals jasmineNames []]),
  ("jest", [globals jestNames []]),
  ("qunit", [globals qunitNames []]),
  ("jquery", [globals jqueryNames []]),
  ("prototypejs", [globals prototypejsNames []]),
  ("shelljs", [globals shelljsNames []]),
  ("mongo", [globals mongoNames []]),
  ("webextensions", [globals webextensionsNames []]),
  ("greasemonkey", [globals greasemonkeyNames []])]

end Cascade.Environment
