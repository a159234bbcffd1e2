import CodeAtlas.Dict

/-!
# Vocabulary

Words that carry no meaning for a search, and the usual words of the field under which others are
looked up.
-/

namespace CodeAtlas.Search

def chineseStopWords : List String :=
  ["的", "了", "和", "是", "就", "都", "而", "及", "与", "这", "那", "有", "在", "中", "为", "对", "或", "所", "因",
   "于", "由", "上", "下", "之", "以", "到", "从", "但", "却", "并", "等", "做", "来", "去", "把", "将", "能", "要",
   "会", "我", "你", "他", "她", "它", "们", "个", "某", "该"]

def englishStopWords : List String :=
  ["a", "an", "the", "and", "or", "but", "if", "then", "else", "when", "of", "to", "in", "for",
   "with", "on", "at", "from", "by", "about", "as", "into", "like", "through", "after", "over",
   "between", "out", "against", "during", "without", "before", "under", "around", "among", "is",
   "are", "was", "were", "be", "been", "being", "have", "has", "had", "do", "does", "did", "will",
   "would", "shall", "should", "can", "could", "may", "might", "must", "that", "which", "who",
   "whom", "whose", "what", "where", "why", "how", "all", "any", "both", "each", "few", "more",
   "most", "other", "some", "such", "no", "nor", "not", "only", "own", "same", "so", "than",
   "too", "very", "s", "t", "just", "don", "don't", "now", "I", "you", "he", "she", "we", "they",
   "it", "this", "these", "those", "their", "I'm", "you're", "he's", "she's", "we're", "they're",
   "I've", "you've", "we've", "they've", "I'd", "you'd", "he'd", "she'd", "we'd", "they'd",
   "I'll", "you'll", "he'll", "she'll", "we'll", "they'll"]

def chineseTerms : Dict String :=
  [("函数", "function"), ("调用", "call"), ("类", "class"), ("继承", "inheritance"), ("模板", "template"),
   ("特化", "specialization"), ("虚函数", "virtual function"), ("接口", "interface"),
   ("实现", "implementation"), ("编译", "compile"), ("构造函数", "constructor"), ("析构函数", "destructor"),
   ("命名空间", "namespace"), ("参数", "parameter"), ("异步", "asynchronous"), ("同步", "synchronous"),
   ("并发", "concurrent"), ("线程安全", "thread safe"), ("内存管理", "memory management"),
   ("智能指针", "smart pointer"), ("容器", "container"), ("算法", "algorithm"), ("迭代器", "iterator"),
   ("错误处理", "error handling"), ("异常", "exception"), ("调试", "debug"),
   ("性能优化", "performance optimization"), ("代码复用", "code reuse"), ("设计模式", "design pattern"),
   ("指针", "pointer"), ("引用", "reference"), ("内存", "memory"), ("线程", "thread"), ("进程", "process"),
   ("互斥", "mutex"), ("锁", "lock"), ("队列", "queue"), ("栈", "stack"), ("堆", "heap"),
   ("字符串", "string"), ("数组", "array"), ("向量", "vector"), ("映射", "map"), ("集合", "set"),
   ("列表", "list"), ("树", "tree"), ("图", "graph"), ("文件", "file"), ("输入", "input"),
   ("输出", "output"), ("网络", "network"), ("套接字", "socket"), ("协议", "protocol"), ("服务器", "server"),
   ("客户端", "client"), ("数据库", "database"), ("查询", "query"), ("事务", "transaction"),
   ("索引", "index"), ("缓存", "cache"), ("排序", "sort"), ("搜索", "search"), ("递归", "recursion"),
   ("迭代", "iteration"), ("回调", "callback"), ("事件", "event"), ("监听器", "listener"),
   ("消息", "message")]

def synonyms : Dict String :=
  List.flatMap (fun (word, forms) => forms.map (·, word))
    [("call", ["invoke", "calling", "calls", "called", "invokes", "invoked"]),
     ("execute", ["executed", "executes", "run", "runs", "running", "ran"]),
     ("instantiate", ["instantiates", "instantiated"]), ("create", ["creates", "created"]),
     ("initialize", ["initializes", "initialized"]), ("terminate", ["terminates", "terminated"]),
     ("destroy", ["destroys", "destroyed"]),
     ("implement", ["implementing", "implements", "implemented"]),
     ("inherit", ["extends", "inherits", "inherited", "derives", "derived", "subclasses",
     "subclassed"]), ("specialize", ["specializes", "specialized"]),
     ("override", ["overrides", "overridden"]),
     ("overload", ["overloads", "overloaded"]), ("process", ["processes", "processed"]),
     ("handle", ["handles", "handled"]), ("manage", ["managing", "manages", "managed"]),
     ("allocate", ["allocates", "allocated"]), ("deallocate", ["deallocates", "deallocated"]),
     ("free", ["frees", "freed"]), ("release", ["releases", "released"]),
     ("lock", ["locks", "locked"]), ("unlock", ["unlocks", "unlocked"]),
     ("synchronize", ["synchronizes", "synchronized"]), ("read", ["reads", "reading"]),
     ("write", ["writes", "writing", "wrote"]), ("render", ["renders", "rendered"]),
     ("draw", ["draws", "drawing", "drew", "drawn"]), ("compute", ["computes", "computed"]),
     ("calculate", ["calculates", "calculated"]), ("validate", ["validates", "validated"]),
     ("verify", ["verifies", "verified"]), ("check", ["checks", "checked"]),
     ("transform", ["transforms", "transformed"]), ("convert", ["converts", "converted"]),
     ("format", ["formats", "formatted"]), ("parse", ["parses", "parsed"]),
     ("serialize", ["serializes", "serialized"]), ("deserialize", ["deserializes", "deserialized"]),
     ("encode", ["encodes", "encoded"]), ("decode", ["decodes", "decoded"]),
     ("encrypt", ["encrypts", "encrypted"]), ("decrypt", ["decrypts", "decrypted"]),
     ("compress", ["compresses", "compressed"]), ("decompress", ["decompresses", "decompressed"]),
     ("load", ["loads", "loaded"]), ("save", ["saves", "saved"]), ("store", ["stores", "stored"]),
     ("retrieve", ["retrieves", "retrieved"]), ("fetch", ["fetches", "fetched"]),
     ("query", ["queries", "queried"]), ("search", ["searches", "searched"]),
     ("find", ["finds", "found"]), ("filter", ["filters", "filtered"]),
     ("sort", ["sorts", "sorted"]), ("merge", ["merges", "merged"]),
     ("split", ["splits", "splitted"]), ("join", ["joins", "joined"]),
     ("concatenate", ["concatenates", "concatenated"]), ("append", ["appends", "appended"]),
     ("insert", ["inserts", "inserted"]), ("remove", ["removes", "removed"]),
     ("delete", ["deletes", "deleted"]), ("update", ["updates", "updated"]),
     ("modify", ["modifies", "modified"]), ("change", ["changes", "changed"]),
     ("send", ["sends", "sent"]), ("receive", ["receives", "received"]),
     ("transmit", ["transmits", "transmitted"]), ("broadcast", ["broadcasts", "broadcasted"]),
     ("publish", ["publishes", "published"]), ("subscribe", ["subscribes", "subscribed"]),
     ("notify", ["notifies", "notified"]), ("signal", ["signals", "signalled"]),
     ("trigger", ["triggers", "triggered"]), ("log", ["logs", "logged"]),
     ("print", ["prints", "printed"]), ("display", ["displays", "displayed"]),
     ("show", ["shows", "shown"]), ("hide", ["hides", "hidden"]),
     ("enable", ["enables", "enabled"]), ("disable", ["disables", "disabled"]),
     ("activate", ["activates", "activated"]), ("deactivate", ["deactivates", "deactivated"]),
     ("start", ["starts", "started"]), ("stop", ["stops", "stopped"]),
     ("resume", ["resumes", "resumed"]), ("pause", ["pauses", "paused"]),
     ("cancel", ["cancels", "cancelled"]), ("abort", ["aborts", "aborted"]),
     ("retry", ["retries", "retried"]), ("skip", ["skips", "skipped"]),
     ("schedule", ["schedules", "scheduled"]), ("dispatch", ["dispatches", "dispatched"]),
     ("delegate", ["delegates", "delegated"]), ("register", ["registers", "registered"]),
     ("unregister", ["unregisters", "unregistered"]), ("commit", ["commits", "committed"]),
     ("rollback", ["rollbacks", "rolled back"]), ("open", ["opens", "opened"]),
     ("close", ["closes", "closed"]), ("connect", ["connects", "connected"]),
     ("disconnect", ["disconnects", "disconnected"]), ("attach", ["attaches", "attached"]),
     ("detach", ["detaches", "detached"]), ("mount", ["mounts", "mounted"]),
     ("unmount", ["unmounts", "unmounted"]), ("bind", ["binds", "bound"]),
     ("unbind", ["unbinds", "unbound"])]

def translate (terms : Dict String) (word : String) : String := (terms.get? word).getD word

end CodeAtlas.Search
